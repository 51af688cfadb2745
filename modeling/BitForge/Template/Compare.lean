/-
The comparisons of the template evaluator: `in` and `not in`, equality and order.
-/
import BitForge.Template.Value

namespace BitForge.Template

open BitForge.Lib

def yes : Option Value := some (.bool true)

/-- What templates rely on when they compare two values. -/
structure Laws (x y : Value) : Prop where
  notIn : ∃ b, binop .isIn x y = some (.bool b) ∧ binop .notIn x y = some (.bool (!b))
  refl : binop .eq x x = yes
  symm : binop .eq x y = binop .eq y x
  le : binop .eq x y = yes → binop .le x y = yes
  ge : binop .eq x y = yes → binop .ge x y = yes

/-- On the values of a kind, `<` is a strict total order, and `==` is its equality. -/
structure StrictTotalOn (kind : Value → Prop) : Prop where
  irrefl : ∀ x, kind x → binop .lt x x ≠ yes
  trans : ∀ x y z, kind x → kind y → kind z → binop .lt x y = yes → binop .lt y z = yes → binop .lt x z = yes
  total : ∀ x y, kind x → kind y → binop .lt x y = yes ∨ binop .eq x y = yes ∨ binop .lt y x = yes
  eq : ∀ x y, kind x → kind y → binop .eq x y = yes → binop .lt x y ≠ yes ∧ x = y

def Value.isContainer : Value → Bool
  | .array _ => true
  | .object _ => true
  | _ => false

/-- The value is an object with the key. -/
def Value.hasKey (v : Value) (key : Str) : Bool :=
  match v with
  | .object obj => obj.any fun kv => kv.1 == key
  | _ => false

def Value.IsInt (v : Value) : Prop := ∃ i, v = .int i

def Value.IsStr (v : Value) : Prop := ∃ s, v = .str s

/-- Arrays and objects do not equal themselves, and `not in` does not look into objects. -/
def LawfulPair (x y : Value) : Prop := x.isContainer = false ∧ y.hasKey x.toStr = false

instance (x y : Value) : Decidable (LawfulPair x y) := by
  unfold LawfulPair; infer_instance

@[simp] theorem some_bool_eq_yes {b : Bool} : some (Value.bool b) = yes ↔ b = true := by
  simp [yes]

@[simp] theorem binop_lt_yes {x y : Value} : binop .lt x y = yes ↔ x.cmp y < 0 := by
  simp [binop]

@[simp] theorem binop_eq_yes {x y : Value} : binop .eq x y = yes ↔ x.equals y = true := by
  simp [binop]

/-! ## Comparison of strings -/

theorem compareStr_self : ∀ s : Str, Value.compareStr s s = 0
  | [] => rfl
  | a :: s => by simp [Value.compareStr, compareStr_self s]

theorem compareStr_cons_lt {a b : UInt8} {s t : Str} :
    Value.compareStr (a :: s) (b :: t) < 0 ↔ a < b ∨ a = b ∧ Value.compareStr s t < 0 := by
  show (if a < b then -1 else if b < a then 1 else Value.compareStr s t) < 0 ↔ _
  split_ifs with hlt hgt
  · simp [hlt]
  · simp [hlt, (UInt8.ne_of_lt hgt).symm]
  · simp [UInt8.le_antisymm (UInt8.not_lt.1 hgt) (UInt8.not_lt.1 hlt)]

theorem compareStr_trichotomy : ∀ s t : Str, Value.compareStr s t < 0 ∨ s = t ∨ Value.compareStr t s < 0
  | [], [] => .inr (.inl rfl)
  | [], _ :: _ => .inl (by simp [Value.compareStr])
  | _ :: _, [] => .inr (.inr (by simp [Value.compareStr]))
  | a :: s, b :: t => by
    simp only [compareStr_cons_lt, List.cons.injEq]
    by_cases hlt : a < b
    · exact .inl (.inl hlt)
    by_cases hgt : b < a
    · exact .inr (.inr (.inl hgt))
    have hab : a = b := UInt8.le_antisymm (UInt8.not_lt.1 hgt) (UInt8.not_lt.1 hlt)
    rcases compareStr_trichotomy s t with h | h | h
    · exact .inl (.inr ⟨hab, h⟩)
    · exact .inr (.inl ⟨hab, h⟩)
    · exact .inr (.inr (.inr ⟨hab.symm, h⟩))

theorem compareStr_trans : ∀ {s t u : Str}, Value.compareStr s t < 0 → Value.compareStr t u < 0 → Value.compareStr s u < 0
  | [], [], _, h, _ => by simp [Value.compareStr] at h
  | _ :: _, [], _, h, _ => by simp [Value.compareStr] at h
  | _, _ :: _, [], _, h => by simp [Value.compareStr] at h
  | [], _ :: _, _ :: _, _, _ => by simp [Value.compareStr]
  | a :: s, b :: t, c :: u, hst, htu => by
    rw [compareStr_cons_lt] at *
    rcases hst with hab | ⟨rfl, hst⟩
    · rcases htu with hbc | ⟨rfl, -⟩
      · exact .inl (UInt8.lt_trans hab hbc)
      · exact .inl hab
    · rcases htu with hbc | ⟨rfl, htu⟩
      · exact .inl hbc
      · exact .inr ⟨rfl, compareStr_trans hst htu⟩

/-! ## Equality -/

theorem equals_self_iff (x : Value) : x.equals x = true ↔ x.isContainer = false := by
  cases x <;> simp [Value.equals, Value.toStr, Value.isContainer]

theorem equals_comm (x y : Value) : x.equals y = y.equals x := by
  cases x <;> cases y <;> simp [Value.equals, Value.toStr, Bool.beq_comm]

/-- Values that are equal are equal strings, or equal integers. -/
theorem cmp_of_equals {x y : Value} (h : x.equals y = true) : x.cmp y = 0 := by
  cases x <;> cases y <;> simp_all [Value.equals, Value.cmp, Value.toStr, compareStr_self]

/-! ## Membership -/

/-- Membership and its negation differ for the keys of an object. -/
theorem binop_notIn (x y : Value) :
    (∃ b, binop .isIn x y = some (.bool b) ∧ binop .notIn x y = some (.bool (!b))) ↔ y.hasKey x.toStr = false := by
  cases y with
  | object obj =>
    constructor
    · rintro ⟨b, hin, hnot⟩
      simp only [binop, Option.some.injEq, Value.bool.injEq] at hin hnot
      cases b
      · exact hin
      · exact absurd hnot (by decide)
    · intro hkey
      refine ⟨false, ?_, rfl⟩
      simp only [binop, Option.some.injEq, Value.bool.injEq]
      exact hkey
  | _ => exact ⟨fun _ => rfl, fun _ => ⟨_, rfl, rfl⟩⟩

/-! ## Order -/

theorem cmp_int_lt {i j : Int} : (Value.int i).cmp (.int j) < 0 ↔ i < j := by
  show (if i < j then -1 else if i > j then 1 else 0) < 0 ↔ i < j
  split_ifs with hlt hgt
  · simp [hlt]
  · simp [hlt]
  · simp [hlt]

theorem cmp_str {s t : Str} : (Value.str s).cmp (.str t) = Value.compareStr s t := rfl

theorem strictTotalOn_int : StrictTotalOn Value.IsInt where
  irrefl := by
    rintro _ ⟨i, rfl⟩
    simp [cmp_int_lt]
  trans := by
    rintro _ _ _ ⟨i, rfl⟩ ⟨j, rfl⟩ ⟨k, rfl⟩ hij hjk
    simp only [binop_lt_yes, cmp_int_lt] at *
    exact hij.trans hjk
  total := by
    rintro _ _ ⟨i, rfl⟩ ⟨j, rfl⟩
    simp only [binop_lt_yes, binop_eq_yes, cmp_int_lt, Value.equals, beq_iff_eq]
    exact lt_trichotomy i j
  eq := by
    rintro _ _ ⟨i, rfl⟩ ⟨j, rfl⟩ h
    simp only [binop_eq_yes, Value.equals, beq_iff_eq] at h
    subst h
    simp [cmp_int_lt]

theorem strictTotalOn_str : StrictTotalOn Value.IsStr where
  irrefl := by
    rintro _ ⟨s, rfl⟩
    simp [cmp_str, compareStr_self]
  trans := by
    rintro _ _ _ ⟨s, rfl⟩ ⟨t, rfl⟩ ⟨u, rfl⟩ hst htu
    simp only [binop_lt_yes, cmp_str] at *
    exact compareStr_trans hst htu
  total := by
    rintro _ _ ⟨s, rfl⟩ ⟨t, rfl⟩
    simp only [binop_lt_yes, binop_eq_yes, cmp_str, Value.equals, Value.toStr, beq_iff_eq]
    exact compareStr_trichotomy s t
  eq := by
    rintro _ _ ⟨s, rfl⟩ ⟨t, rfl⟩ h
    simp only [binop_eq_yes, Value.equals, Value.toStr, beq_iff_eq] at h
    subst h
    simp [cmp_str, compareStr_self]

/-! ## The laws -/

theorem laws_iff (x y : Value) : Laws x y ↔ LawfulPair x y := by
  constructor
  · rintro ⟨hnotIn, hrefl, -, -, -⟩
    rw [binop_eq_yes] at hrefl
    exact ⟨(equals_self_iff x).1 hrefl, (binop_notIn x y).1 hnotIn⟩
  · rintro ⟨hcontainer, hkey⟩
    refine ⟨(binop_notIn x y).2 hkey, ?_, ?_, ?_, ?_⟩
    · simp [binop, (equals_self_iff x).2 hcontainer]
    · simp [binop, equals_comm x y]
    all_goals
      intro h
      rw [binop_eq_yes] at h
      simp [binop, cmp_of_equals h]

/-- The laws hold of just the pairs whose first value is no array or object and no key of the second. On integers and on
strings the order is strict and total. -/
theorem comparison_laws (x y : Value) :
    (Laws x y ↔ LawfulPair x y) ∧ StrictTotalOn Value.IsInt ∧ StrictTotalOn Value.IsStr :=
  ⟨laws_iff x y, strictTotalOn_int, strictTotalOn_str⟩

/-- A key of an object is in it and also not in it. -/
theorem key_not_in_object : ¬ Laws (.str (ascii "role")) (.object [(ascii "role", .str (ascii "user"))]) := by
  rw [laws_iff]
  decide

end BitForge.Template
