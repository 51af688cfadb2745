/-
Names of files as segments between slashes, and what is left of them when `.` and empty segments are dropped and `..` is
resolved, without a look at the file system.
-/
import BitForge.Lib.CString

namespace BitForge.Lib

def dot : List UInt8 := [46]

def dotDot : List UInt8 := [46, 46]

/-- Whether a name starts at the root, and its segments. -/
structure NormalName where
  absolute : Bool
  segments : List (List UInt8)
deriving DecidableEq, Repr

/-- One more segment, on the stack of those before. -/
def pushSegment (absolute : Bool) (stack : List (List UInt8)) (seg : List UInt8) : List (List UInt8) :=
  if seg = [] ∨ seg = dot then stack
  else if seg = dotDot then
    match stack with
    | [] => if absolute then [] else [dotDot]
    | top :: rest => if top = dotDot then dotDot :: top :: rest else rest
  else seg :: stack

def isAbsolute (name : List UInt8) : Bool := name.head? = some 47

/-- The segments before the last `..` are resolved with it, and only a relative name starts with `..`. -/
def normalName (name : List UInt8) : NormalName :=
  ⟨isAbsolute name, ((name.splitOn 47).foldl (pushSegment (isAbsolute name)) []).reverse⟩

/-- A name is a directory's or that of something below it. -/
def IsUnder (dir name : List UInt8) : Prop :=
  (normalName name).absolute = (normalName dir).absolute ∧
    ∃ rest, (normalName name).segments = (normalName dir).segments ++ rest ∧ dotDot ∉ rest

theorem foldl_pushSegment {absolute : Bool} : ∀ {segs stack : List (List UInt8)}, dotDot ∉ segs →
    ∃ more, segs.foldl (pushSegment absolute) stack = more ++ stack ∧ dotDot ∉ more
  | [], stack, _ => ⟨[], rfl, List.not_mem_nil⟩
  | seg :: segs, stack, h => by
    rw [List.mem_cons, not_or] at h
    obtain ⟨more, heq, hmore⟩ := @foldl_pushSegment absolute segs (pushSegment absolute stack seg) h.2
    rw [List.foldl_cons, heq]
    unfold pushSegment
    rw [if_neg (Ne.symm h.1)]
    by_cases hskip : seg = [] ∨ seg = dot
    · rw [if_pos hskip]
      exact ⟨more, rfl, hmore⟩
    · rw [if_neg hskip]
      refine ⟨more ++ [seg], by simp, ?_⟩
      rw [List.mem_append, List.mem_singleton, not_or]
      exact ⟨hmore, h.1⟩

/-- What is appended behind a slash stays below if it has no segment `..`. -/
theorem isUnder_append {dir tail : List UInt8} (hdir : dir ≠ []) (hstart : tail = [] ∨ tail.head? = some 47)
    (htail : dotDot ∉ tail.splitOn 47) : IsUnder dir (dir ++ tail) := by
  have habs : isAbsolute (dir ++ tail) = isAbsolute dir := by
    unfold isAbsolute
    rw [List.head?_append_of_ne_nil _ hdir]
  refine ⟨habs, ?_⟩
  unfold normalName
  rw [habs]
  rcases hstart with rfl | hhead
  · exact ⟨[], by simp, List.not_mem_nil⟩
  · obtain ⟨rest, rfl⟩ : ∃ rest, tail = 47 :: rest := by
      cases tail with
      | nil => cases hhead
      | cons c rest =>
        cases hhead
        exact ⟨rest, rfl⟩
    have hrest : dotDot ∉ rest.splitOn 47 := by
      intro hmem
      apply htail
      rw [List.splitOn_cons_eq_if_modifyHead, if_pos (by simp)]
      exact List.mem_cons_of_mem _ hmem
    obtain ⟨more, heq, hmore⟩ := @foldl_pushSegment (isAbsolute dir) _
      ((dir.splitOn 47).foldl (pushSegment (isAbsolute dir)) []) hrest
    refine ⟨more.reverse, ?_, by simpa using hmore⟩
    rw [List.splitOn_append_cons_self, List.foldl_append, heq, List.reverse_append]

end BitForge.Lib
