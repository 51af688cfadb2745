/-
Where the receiving loop ends for a well-formed request, and when the body that a handler gets is the
one that the request declares.
-/
import BitForge.Api.Connection
import BitForge.Api.Request

namespace BitForge.Api

open BitForge.Lib

/-! ## The end of the headers -/

theorem two_le_headerSection (hs : List (List UInt8 × List UInt8)) : 2 ≤ (headerSection hs).length := by
  unfold headerSection
  rw [List.length_append]
  exact Nat.le_add_left ..

/-- A line that is not blank is passed over, with the line end before it. -/
theorem strstr_crlf_line {l : List UInt8} (hne : l ≠ []) (h13 : 13 ∉ l) (s : List UInt8) :
    strstr (13 :: 10 :: (l ++ s)) [13, 10, 13, 10] = (strstr s [13, 10, 13, 10]).map (l.length + 2 + ·) := by
  obtain ⟨c, l, rfl⟩ := List.exists_cons_of_ne_nil hne
  have hc := h13
  rw [List.mem_cons, not_or] at hc
  have hfirst : ([13, 10, 13, 10] : List UInt8).isPrefixOf (13 :: 10 :: (c :: l ++ s)) = false := by
    simp [List.isPrefixOf, hc.1]
  have hpass := @strstr_pass 13 (10 :: c :: l) (by simpa using h13) s [10, 13, 10]
  rw [strstr, hfirst, if_neg Bool.false_ne_true]
  change (strstr (10 :: c :: l ++ s) [13, 10, 13, 10]).map (· + 1) = _
  rw [hpass, Option.map_map]
  congr 1
  funext i
  simp only [Function.comp, List.length_cons]
  omega

theorem strstr_lf_line {l : List UInt8} (hne : l ≠ []) (h10 : 10 ∉ l) (s : List UInt8) :
    strstr (13 :: 10 :: (l ++ s)) [10, 10] = (strstr s [10, 10]).map (l.length + 2 + ·) := by
  obtain ⟨c, l, rfl⟩ := List.exists_cons_of_ne_nil hne
  have hc := h10
  rw [List.mem_cons, not_or] at hc
  have hfirst : ([10, 10] : List UInt8).isPrefixOf (13 :: 10 :: (c :: l ++ s)) = false := rfl
  have hsecond : ([10, 10] : List UInt8).isPrefixOf (10 :: (c :: l ++ s)) = false := by
    simp [List.isPrefixOf, hc.1]
  rw [strstr, hfirst, if_neg Bool.false_ne_true, strstr, hsecond, if_neg Bool.false_ne_true,
    strstr_pass h10, Option.map_map, Option.map_map]
  congr 1
  funext i
  simp only [Function.comp]
  omega

theorem headerBytes_ne_nil (h : List UInt8 × List UInt8) : headerBytes h ≠ [] := by
  unfold headerBytes
  simp

theorem strstr_blank_section {hs : List (List UInt8 × List UInt8)}
    (hwf : ∀ h ∈ hs, OneLine h.1 ∧ 58 ∉ h.1 ∧ OneLine h.2) (s : List UInt8) :
    strstr (13 :: 10 :: (headerSection hs ++ s)) [13, 10, 13, 10] = some ((headerSection hs).length - 2) ∧
      strstr (13 :: 10 :: headerSection hs) [10, 10] = none := by
  induction hs with
  | nil => exact ⟨rfl, rfl⟩
  | cons h hs ih =>
    rw [List.forall_mem_cons] at hwf
    obtain ⟨hline1, -, hline2⟩ := hwf.1
    obtain ⟨-, h10, h13⟩ := oneLine_headerBytes hline1 hline2
    obtain ⟨ihcrlf, ihlf⟩ := ih hwf.2
    have htwo := two_le_headerSection hs
    rw [headerSection_cons]
    constructor
    · rw [List.append_assoc, strstr_crlf_line (headerBytes_ne_nil h) h13, List.cons_append, List.cons_append, ihcrlf,
        Option.map_some, List.length_append, List.length_cons, List.length_cons]
      congr 1
      omega
    · rw [strstr_lf_line (headerBytes_ne_nil h) h10, ihlf]
      rfl

variable {R : Request}

theorem oneLine_line (hwf : R.WellFormed) : OneLine R.line := by
  obtain ⟨⟨hm0, hm10, hm13⟩, -⟩ := hwf.method
  obtain ⟨⟨ht0, ht10, ht13⟩, -⟩ := hwf.target
  have h0 : 0 ∉ ascii " HTTP/1.1" := by decide
  have h10 : 10 ∉ ascii " HTTP/1.1" := by decide
  have h13 : 13 ∉ ascii " HTTP/1.1" := by decide
  unfold Request.line
  exact ⟨by simp [hm0, ht0, h0], by simp [hm10, ht10, h10], by simp [hm13, ht13, h13]⟩

theorem length_bytes (R : Request) : R.bytes.length = R.line.length + 2 + (headerSection R.headers).length := by
  unfold Request.bytes
  rw [List.length_append, List.length_cons, List.length_cons]
  omega

theorem strstr_bytes (hwf : R.WellFormed) (s : List UInt8) :
    strstr (R.bytes ++ s) [13, 10, 13, 10] = some (R.bytes.length - 4) ∧ strstr R.bytes [10, 10] = none := by
  obtain ⟨-, h10, h13⟩ := oneLine_line hwf
  obtain ⟨hcrlf, hlf⟩ := strstr_blank_section hwf.headers s
  have htwo := two_le_headerSection R.headers
  have hlen := length_bytes R
  constructor
  · unfold Request.bytes
    rw [List.append_assoc, strstr_pass h13, List.cons_append, List.cons_append, hcrlf, Option.map_some]
    congr 1
    unfold Request.bytes at hlen
    omega
  · unfold Request.bytes
    rw [strstr_pass h10, hlf]
    rfl

theorem four_le_bytes (R : Request) : 4 ≤ R.bytes.length := by
  have htwo := two_le_headerSection R.headers
  have hlen := length_bytes R
  omega

/-- The end of the headers is found as soon as all of them arrived, and not before. -/
theorem findHeaderEnd_take (hwf : R.WellFormed) (body : List UInt8) (t : Nat) :
    findHeaderEnd (untilNul ((R.bytes ++ body).take t)) = if R.bytes.length ≤ t then some R.bytes.length else none := by
  have hfour := four_le_bytes R
  unfold findHeaderEnd
  split
  · next i hi =>
    split
    · next hle =>
      obtain ⟨k, rfl⟩ := Nat.exists_eq_add_of_le hle
      rw [List.take_length_add_append, untilNul_append (noNul_bytes hwf), (strstr_bytes hwf _).1] at hi
      cases hi
      congr 1
      omega
    · next hlt =>
      rw [List.take_append_of_le_length (by omega), untilNul_of_noNul fun hc => noNul_bytes hwf (List.mem_of_mem_take hc)] at hi
      have hlen := strstr_length (by simp) hi
      have hall := strstr_append (by simp) hi (R.bytes.drop t)
      have hbytes := (strstr_bytes hwf []).1
      rw [List.append_nil] at hbytes
      rw [List.take_append_drop, hbytes] at hall
      cases hall
      rw [List.length_take] at hlen
      change _ + 4 ≤ _ at hlen
      omega
  · next hnone =>
    split
    · next hle =>
      obtain ⟨k, rfl⟩ := Nat.exists_eq_add_of_le hle
      rw [List.take_length_add_append, untilNul_append (noNul_bytes hwf), (strstr_bytes hwf _).1] at hnone
      cases hnone
    · next hlt =>
      rw [List.take_append_of_le_length (by omega), untilNul_of_noNul fun hc => noNul_bytes hwf (List.mem_of_mem_take hc)]
      cases h : strstr (R.bytes.take t) [10, 10] with
      | none => rfl
      | some i =>
        have hall := strstr_append (by simp) h (R.bytes.drop t)
        rw [List.take_append_drop, (strstr_bytes hwf []).2] at hall
        cases hall

/-! ## Arrivals -/

theorem httpMaxBodyBytes_eq : httpMaxBodyBytes = 8388608 := by unfold httpMaxBodyBytes; rfl

/-- How many bytes have arrived after each `recv`, as long as the loop asks for more: of each size what
the buffer has room for and the client still sends. -/
def arrivals (len : Nat) : List Nat → Nat → Nat → List Nat
  | [], _, _ => []
  | n :: ns, total, cap =>
    let k := min (min n (cap - total - 1)) (len - total)
    if k = 0 then []
    else (total + k) :: arrivals len ns (total + k) (if cap - (total + k) < 1024 then cap * 2 else cap)

/-- The bytes read up to the first arrival of `goal` bytes, or of all; `none` where the buffer would
have to grow too large before. -/
def readUpTo (goal : Nat) : List Nat → Nat → Option Nat
  | [], total => some total
  | t :: ts, _ => if goal ≤ t then some t else if httpMaxBodyBytes < t + 1024 then none else readUpTo goal ts t

theorem readUpTo_le {goal len : Nat} : ∀ {ns : List Nat} {total cap t : Nat}, total ≤ len →
    readUpTo goal (arrivals len ns total cap) total = some t → t ≤ len
  | [], total, cap, t, hle, h => by
    cases h
    exact hle
  | n :: ns, total, cap, t, hle, h => by
    unfold arrivals at h
    dsimp only at h
    split at h
    · cases h
      exact hle
    · unfold readUpTo at h
      split at h
      · cases h
        omega
      · split at h
        · cases h
        · exact readUpTo_le (by omega) h

/-- The buffer's size: it doubles, and has room for 1024 bytes more. -/
structure CapOk (total cap : Nat) : Prop where
  power : ∃ k ≤ 10, cap = 8192 * 2 ^ k
  room : total + 1024 ≤ cap

theorem capOk_start : CapOk 0 httpRecvBuf := ⟨⟨0, by omega, rfl⟩, by decide⟩

/-- The buffer grows too large exactly if fewer than 1024 bytes are left of the largest body. -/
theorem CapOk.grow {total cap t : Nat} (h : CapOk total cap) (ht : t < cap) :
    (httpMaxBodyBytes < t + 1024 ∧ cap - t < 1024 ∧ httpMaxBodyBytes + 8192 < cap * 2) ∨
      (¬ httpMaxBodyBytes < t + 1024 ∧ cap - t < 1024 ∧ ¬ httpMaxBodyBytes + 8192 < cap * 2 ∧ CapOk t (cap * 2)) ∨
      (¬ httpMaxBodyBytes < t + 1024 ∧ ¬ cap - t < 1024 ∧ CapOk t cap) := by
  obtain ⟨⟨k, hk, rfl⟩, hroom⟩ := h
  have hmax := httpMaxBodyBytes_eq
  by_cases hfull : 8192 * 2 ^ k - t < 1024
  · by_cases hten : k = 10
    · subst hten
      left
      omega
    · right
      left
      have hpow : 2 ^ k ≤ 2 ^ 9 := Nat.pow_le_pow_right (by omega) (by omega)
      refine ⟨by omega, hfull, by omega, ⟨k + 1, by omega, by rw [Nat.pow_succ]; omega⟩, ?_⟩
      have hpos : 1 ≤ 2 ^ k := Nat.one_le_two_pow
      omega
  · right
    right
    have hpow : 2 ^ k ≤ 2 ^ 10 := Nat.pow_le_pow_right (by omega) hk
    exact ⟨by omega, hfull, ⟨k, hk, rfl⟩, by omega⟩

/-! ## The loop -/

/-- The loop ends with the bytes that `o` tells, and with a state of its other variables that depends on
their number. -/
def Reads (stream : List UInt8) (view : Nat → Bool × Int × Nat) (o : Option Nat) (r : Received) : Prop :=
  match o with
  | none => r = .tooLarge
  | some t => ∃ cap, r = .got ⟨stream.take t, cap, (view t).1, (view t).2.1, (view t).2.2⟩

theorem Reads.tooLarge {stream : List UInt8} {view : Nat → Bool × Int × Nat} : Reads stream view none .tooLarge := rfl

/-- One turn of the loop, by the number of bytes that arrive. -/
theorem recvLoop_cons {stream : List UInt8} {n : Nat} {ns : List Nat} {total cap k : Nat} {d : Bool} {cl : Int} {he : Nat}
    (hcap : CapOk total cap) (hle : total ≤ stream.length) (hk : k = min (min n (cap - total - 1)) (stream.length - total)) :
    recvLoop stream (n :: ns) ⟨stream.take total, cap, d, cl, he⟩ =
      if k = 0 then .got ⟨stream.take total, cap, d, cl, he⟩
      else
        match RecvState.examine ⟨stream.take (total + k), cap, d, cl, he⟩ with
        | (s, true) => .got s
        | (s, false) =>
          if s.cap - s.buf.length < 1024 then
            if httpMaxBodyBytes + 8192 < s.cap * 2 then .tooLarge else recvLoop stream ns { s with cap := s.cap * 2 }
          else recvLoop stream ns s := by
  have hlen : (stream.take total).length = total := by rw [List.length_take]; omega
  have hmax := httpMaxBodyBytes_eq
  obtain ⟨⟨e, he10, hpow⟩, hroom⟩ := hcap
  have hbound : 2 ^ e ≤ 2 ^ 10 := Nat.pow_le_pow_right (by omega) he10
  have hpiece : ((stream.drop total).take (min n (cap - total - 1))).length = k := by
    rw [List.length_take, List.length_drop, hk]
  have hbuf : stream.take total ++ (stream.drop total).take (min n (cap - total - 1)) = stream.take (total + k) := by
    rw [List.take_add]
    congr 1
    rcases Nat.le_total (min n (cap - total - 1)) (stream.length - total) with h | h
    · rw [hk, Nat.min_eq_left h]
    · rw [hk, Nat.min_eq_right h, List.take_of_length_le (by rw [List.length_drop]; exact h),
        List.take_of_length_le (by rw [List.length_drop])]
  conv_lhs => unfold recvLoop
  dsimp only
  rw [hlen, if_neg (by omega), hbuf]
  by_cases hk0 : k = 0
  · rw [if_pos hk0, if_pos (List.length_eq_zero_iff.1 (hpiece.trans hk0))]
  · exact (if_neg fun h => hk0 (by rw [← hpiece, h, List.length_nil])).trans (if_neg hk0).symm

theorem length_take_of_le {stream : List UInt8} {t : Nat} (h : t ≤ stream.length) : (stream.take t).length = t := by
  rw [List.length_take]
  omega

/-- The end of a turn that goes on: the buffer grows, or is too large. -/
theorem Reads.grow {stream : List UInt8} {view : Nat → Bool × Int × Nat} {ns : List Nat} {goal total cap t : Nat} {d : Bool}
    {cl : Int} {he : Nat} (hcap : CapOk total cap) (ht : t < cap) (hle : t ≤ stream.length)
    (h : ∀ cap', CapOk t cap' → cap' = (if cap - t < 1024 then cap * 2 else cap) → Reads stream view (readUpTo goal (arrivals stream.length ns t cap') t)
      (recvLoop stream ns ⟨stream.take t, cap', d, cl, he⟩)) :
    Reads stream view
      (if httpMaxBodyBytes < t + 1024 then none
        else readUpTo goal (arrivals stream.length ns t (if cap - t < 1024 then cap * 2 else cap)) t)
      (if cap - (stream.take t).length < 1024 then
        if httpMaxBodyBytes + 8192 < cap * 2 then .tooLarge else recvLoop stream ns ⟨stream.take t, cap * 2, d, cl, he⟩
      else recvLoop stream ns ⟨stream.take t, cap, d, cl, he⟩) := by
  rw [length_take_of_le hle]
  rcases hcap.grow ht with ⟨h1, h2, h3⟩ | ⟨h1, h2, h3, hcap'⟩ | ⟨h1, h2, hcap'⟩
  · simp only [h1, h2, h3, ↓reduceIte]
    exact Reads.tooLarge
  · simp only [h1, h2, h3, ↓reduceIte]
    exact h _ hcap' (if_pos h2).symm
  · simp only [h1, h2, ↓reduceIte]
    exact h _ hcap' (if_neg h2).symm

/-- Behind the headers the loop stops at the first arrival of the whole body. -/
theorem recvLoop_body {stream : List UInt8} {view : Nat → Bool × Int × Nat} {H L goal : Nat} (hgoal : goal = H + L)
    (hview : ∀ t, H ≤ t → view t = (true, (L : Int), H)) : ∀ (ns : List Nat) {total cap : Nat},
    CapOk total cap → total ≤ stream.length → H ≤ total → total < goal →
    Reads stream view (readUpTo goal (arrivals stream.length ns total cap) total)
      (recvLoop stream ns ⟨stream.take total, cap, true, L, H⟩)
  | [], total, cap, _, _, hH, _ => ⟨cap, by rw [hview total hH]; rfl⟩
  | n :: ns, total, cap, hcap, hle, hH, hlt => by
    have hroom := hcap.room
    obtain ⟨k, hk⟩ : ∃ k, k = min (min n (cap - total - 1)) (stream.length - total) := ⟨_, rfl⟩
    rw [recvLoop_cons hcap hle hk, arrivals, ← hk]
    by_cases hk0 : k = 0
    · rw [if_pos hk0, if_pos hk0]
      exact ⟨cap, by rw [hview total hH]⟩
    have hexamine : RecvState.examine ⟨stream.take (total + k), cap, true, L, H⟩ =
        (⟨stream.take (total + k), cap, true, L, H⟩, decide (goal ≤ total + k)) := by
      unfold RecvState.examine
      rw [if_pos rfl]
      dsimp only
      rw [length_take_of_le (by omega)]
      congr 1
      exact decide_eq_decide.2 (by omega)
    rw [if_neg hk0, if_neg hk0, readUpTo, hexamine]
    by_cases hstop : goal ≤ total + k
    · simp only [hstop, ↓reduceIte, decide_true]
      exact ⟨cap, by rw [hview _ (by omega)]⟩
    · simp only [hstop, ↓reduceIte, decide_false]
      exact Reads.grow hcap (by omega) (by omega) fun cap' hcap' _ =>
        recvLoop_body hgoal hview ns hcap' (by omega) (by omega) (by omega)

/-- What the loop knows after `t` bytes of a request of `H` bytes up to its blank line. -/
def headView (H : Nat) (c : Int) (t : Nat) : Bool × Int × Nat := if H ≤ t then (true, c, H) else (false, -1, 0)

/-- The length that is scanned at the first arrival of all headers. -/
def ScansLength (R : Request) (stream : List UInt8) (ts : List Nat) (c : Int) : Prop :=
  ∀ u, ts.find? (fun u => decide (R.bytes.length ≤ u)) = some u → scanLength (untilNul (stream.take u)) = c

theorem examine_head (hwf : R.WellFormed) (body : List UInt8) {t cap : Nat} :
    RecvState.examine ⟨(R.bytes ++ body).take t, cap, false, -1, 0⟩ =
      if R.bytes.length ≤ t then
        (RecvState.mk ((R.bytes ++ body).take t) cap true (scanLength (untilNul ((R.bytes ++ body).take t))) R.bytes.length,
          decide (scanLength (untilNul ((R.bytes ++ body).take t)) < 0 ∨
            (R.bytes.length : Int) + scanLength (untilNul ((R.bytes ++ body).take t)) ≤ ((R.bytes ++ body).take t).length))
      else (RecvState.mk ((R.bytes ++ body).take t) cap false (-1) 0, false) := by
  unfold RecvState.examine
  rw [if_neg Bool.false_ne_true]
  dsimp only
  rw [findHeaderEnd_take hwf]
  by_cases h : R.bytes.length ≤ t
  · rw [if_pos h, if_pos h]
  · rw [if_neg h, if_neg h]

/-- The declared length tells the loop to stop exactly at the whole body. -/
theorem declared_stop {L : Option Nat} {H t : Nat} (hH : H ≤ t) :
    (declared L < 0 ∨ (H : Int) + declared L ≤ (t : Int)) ↔ H + L.getD 0 ≤ t := by
  cases L with
  | none => exact iff_of_true (.inl (by decide)) hH
  | some l =>
    change ((l : Int) < 0 ∨ (H : Int) + (l : Int) ≤ (t : Int)) ↔ H + l ≤ t
    omega

theorem recvLoop_head (hwf : R.WellFormed) {body : List UInt8} {L : Option Nat} : ∀ (ns : List Nat) {total cap : Nat},
    CapOk total cap → total ≤ (R.bytes ++ body).length → total < R.bytes.length →
    ScansLength R (R.bytes ++ body) (arrivals (R.bytes ++ body).length ns total cap) (declared L) →
    Reads (R.bytes ++ body) (headView R.bytes.length (declared L))
      (readUpTo (R.bytes.length + L.getD 0) (arrivals (R.bytes ++ body).length ns total cap) total)
      (recvLoop (R.bytes ++ body) ns ⟨(R.bytes ++ body).take total, cap, false, -1, 0⟩)
  | [], total, cap, _, _, hlt, _ => ⟨cap, by rw [headView, if_neg (by omega)]; rfl⟩
  | n :: ns, total, cap, hcap, hle, hlt, hscan => by
    have hroom := hcap.room
    obtain ⟨k, hk⟩ : ∃ k, k = min (min n (cap - total - 1)) ((R.bytes ++ body).length - total) := ⟨_, rfl⟩
    rw [recvLoop_cons hcap hle hk]
    rw [arrivals, ← hk] at hscan ⊢
    by_cases hk0 : k = 0
    · rw [if_pos hk0, if_pos hk0]
      exact ⟨cap, by rw [headView, if_neg (by omega)]⟩
    rw [if_neg hk0] at hscan
    rw [if_neg hk0, if_neg hk0, readUpTo, examine_head hwf body]
    by_cases hhead : R.bytes.length ≤ total + k
    · have hlength := hscan (total + k) (by rw [List.find?_cons, decide_eq_true hhead])
      rw [if_pos hhead, hlength, length_take_of_le (by omega)]
      by_cases hstop : R.bytes.length + L.getD 0 ≤ total + k
      · simp only [hstop, (declared_stop hhead).2 hstop, ↓reduceIte, decide_true]
        exact ⟨cap, by rw [headView, if_pos hhead]⟩
      · simp only [hstop, mt (declared_stop hhead).1 hstop, ↓reduceIte, decide_false]
        -- a body is still to come, so a length is declared
        cases L with
        | none => exact absurd hhead hstop
        | some l =>
          exact Reads.grow hcap (by omega) (by omega) fun cap' hcap' _ =>
            recvLoop_body rfl (fun t ht => by rw [headView, if_pos ht]; rfl) ns hcap' (by omega) (by omega)
              (Nat.lt_of_not_le hstop)
    · have hstop : ¬ R.bytes.length + L.getD 0 ≤ total + k := by omega
      have hscan' : ScansLength R (R.bytes ++ body) (arrivals (R.bytes ++ body).length ns (total + k)
          (if cap - (total + k) < 1024 then cap * 2 else cap)) (declared L) := by
        intro u hu
        exact hscan u (by rw [List.find?_cons, decide_eq_false hhead]; exact hu)
      simp only [hhead, hstop, ↓reduceIte]
      exact Reads.grow hcap (by omega) (by omega) fun cap' hcap' hnew =>
        recvLoop_head hwf ns hcap' (by omega) (by omega) (hnew ▸ hscan')

/-- Once the length was scanned it stays. -/
theorem recvLoop_done {stream : List UInt8} : ∀ (ns : List Nat) (s : RecvState), s.headersDone = true →
    recvLoop stream ns s = .tooLarge ∨
      ∃ s', recvLoop stream ns s = .got s' ∧ s'.headersDone = true ∧ s'.contentLength = s.contentLength
  | [], s, hdone => .inr ⟨s, rfl, hdone, rfl⟩
  | n :: ns, s, hdone => by
    unfold recvLoop
    split
    · exact .inr ⟨s, rfl, hdone, rfl⟩
    dsimp only
    split
    · exact .inr ⟨s, rfl, hdone, rfl⟩
    unfold RecvState.examine
    rw [if_pos hdone]
    split
    · next s' heq =>
      obtain ⟨rfl, -⟩ := Prod.mk.inj heq
      exact .inr ⟨_, rfl, hdone, rfl⟩
    · next s' heq =>
      obtain ⟨rfl, -⟩ := Prod.mk.inj heq
      split
      · split
        · exact .inl rfl
        · exact recvLoop_done ns _ hdone
      · exact recvLoop_done ns _ hdone

/-- Whatever length is scanned at the first arrival of all headers is the one that the loop uses. -/
theorem recvLoop_scans (hwf : R.WellFormed) {body : List UInt8} {u : Nat} : ∀ (ns : List Nat) {total cap : Nat},
    CapOk total cap → total ≤ (R.bytes ++ body).length → total < R.bytes.length →
    (arrivals (R.bytes ++ body).length ns total cap).find? (fun u => decide (R.bytes.length ≤ u)) = some u →
    recvLoop (R.bytes ++ body) ns ⟨(R.bytes ++ body).take total, cap, false, -1, 0⟩ = .tooLarge ∨
      ∃ s, recvLoop (R.bytes ++ body) ns ⟨(R.bytes ++ body).take total, cap, false, -1, 0⟩ = .got s ∧
        s.headersDone = true ∧ s.contentLength = scanLength (untilNul ((R.bytes ++ body).take u))
  | [], total, cap, _, _, _, hu => by cases hu
  | n :: ns, total, cap, hcap, hle, hlt, hu => by
    have hroom := hcap.room
    obtain ⟨k, hk⟩ : ∃ k, k = min (min n (cap - total - 1)) ((R.bytes ++ body).length - total) := ⟨_, rfl⟩
    rw [recvLoop_cons hcap hle hk, examine_head hwf body]
    rw [arrivals, ← hk] at hu
    by_cases hk0 : k = 0
    · rw [if_pos hk0] at hu
      cases hu
    rw [if_neg hk0, List.find?_cons] at hu
    rw [if_neg hk0]
    by_cases hhead : R.bytes.length ≤ total + k
    · rw [decide_eq_true hhead] at hu
      cases hu
      rw [if_pos hhead]
      split
      · next s' heq =>
        obtain ⟨rfl, -⟩ := Prod.mk.inj heq
        exact .inr ⟨_, rfl, rfl, rfl⟩
      · next s' heq =>
        obtain ⟨rfl, -⟩ := Prod.mk.inj heq
        split
        · split
          · exact .inl rfl
          · exact recvLoop_done ns _ rfl
        · exact recvLoop_done ns _ rfl
    · rw [decide_eq_false hhead] at hu
      simp only [hhead, ↓reduceIte]
      rw [length_take_of_le (by omega)]
      rcases hcap.grow (show total + k < cap by omega) with ⟨h1, h2, h3⟩ | ⟨h1, h2, h3, hcap'⟩ | ⟨h1, h2, hcap'⟩
      · simp only [h2, h3, ↓reduceIte]
        exact .inl trivial
      · simp only [h2, h3, ↓reduceIte] at hu ⊢
        exact recvLoop_scans hwf ns hcap' (by omega) (by omega) hu
      · simp only [h2, ↓reduceIte] at hu ⊢
        exact recvLoop_scans hwf ns hcap' (by omega) (by omega) hu

theorem examine_buf (s : RecvState) : s.examine.1.buf = s.buf := by
  unfold RecvState.examine
  split
  · rfl
  · split <;> rfl

/-- What was received is the start of what the client sends. -/
theorem recvLoop_start {stream : List UInt8} {ns : List Nat} {s s' : RecvState} (hpre : s.buf <+: stream)
    (h : recvLoop stream ns s = .got s') : s'.buf <+: stream := by
  induction ns generalizing s with
  | nil =>
    cases h
    exact hpre
  | cons n ns ih =>
    have hpiece : s.buf ++ (stream.drop s.buf.length).take (min n (s.cap - s.buf.length - 1)) <+: stream := by
      obtain ⟨more, rfl⟩ := hpre
      rw [List.drop_left]
      exact (List.prefix_append_right_inj s.buf).2 (List.take_prefix ..)
    have hbuf := examine_buf { s with buf := s.buf ++ (stream.drop s.buf.length).take (min n (s.cap - s.buf.length - 1)) }
    unfold recvLoop at h
    split at h
    · cases h
      exact hpre
    dsimp only at h hbuf
    split at h
    · cases h
      exact hpre
    split at h
    · next s1 heq =>
      rw [heq] at hbuf
      cases h
      rw [hbuf]
      exact hpiece
    · next s1 heq =>
      rw [heq] at hbuf
      have hpre1 : s1.buf <+: stream := by
        rw [hbuf]
        exact hpiece
      split at h
      · split at h
        · cases h
        · exact ih (s := { s1 with cap := s1.cap * 2 }) hpre1 h
      · exact ih hpre1 h

/-- A request alone that leaves room in the largest buffer arrives in pieces of 1000 bytes. -/
theorem recvLoop_whole (hwf : R.WellFormed) (hsize : R.bytes.length + 1024 ≤ httpMaxBodyBytes) : ∀ (m : Nat) {total cap : Nat},
    CapOk total cap → total < R.bytes.length → R.bytes.length - total ≤ 1000 * m →
    ∃ s, recvLoop R.bytes (List.replicate m 1000) ⟨R.bytes.take total, cap, false, -1, 0⟩ = .got s ∧ s.buf = R.bytes
  | 0, total, cap, _, hlt, hm => by omega
  | m + 1, total, cap, hcap, hlt, hm => by
    have hroom := hcap.room
    obtain ⟨k, hk⟩ : ∃ k, k = min (min 1000 (cap - total - 1)) (R.bytes.length - total) := ⟨_, rfl⟩
    have hexamine := @examine_head R hwf [] (total + k) cap
    rw [List.append_nil] at hexamine
    rw [List.replicate_succ, recvLoop_cons hcap (by omega) hk, if_neg (by omega), hexamine]
    have hgrow := hcap.grow (show total + k < cap by omega)
    by_cases hhead : R.bytes.length ≤ total + k
    · have hall : R.bytes.take (total + k) = R.bytes := List.take_of_length_le hhead
      have hdone : ∀ cap' cl he, ∃ s, recvLoop R.bytes (List.replicate m 1000) ⟨R.bytes, cap', true, cl, he⟩ = .got s ∧
          s.buf = R.bytes := by
        intro cap' cl he
        cases m with
        | zero => exact ⟨_, rfl, rfl⟩
        | succ m =>
          rw [List.replicate_succ]
          unfold recvLoop
          dsimp only
          rw [if_neg (by omega), List.drop_length, List.take_nil, if_pos rfl]
          exact ⟨_, rfl, rfl⟩
      rw [if_pos hhead, hall]
      split
      · next s heq =>
        obtain ⟨rfl, -⟩ := Prod.mk.inj heq
        exact ⟨_, rfl, rfl⟩
      · next s heq =>
        obtain ⟨rfl, -⟩ := Prod.mk.inj heq
        dsimp only
        rcases hgrow with ⟨h1, h2, h3⟩ | ⟨h1, h2, h3, hcap'⟩ | ⟨h1, h2, hcap'⟩
        · omega
        · rw [if_pos (by omega), if_neg h3]
          exact hdone _ _ _
        · rw [if_neg (by omega)]
          exact hdone _ _ _
    · simp only [hhead, ↓reduceIte]
      rw [length_take_of_le (by omega)]
      rcases hgrow with ⟨h1, h2, h3⟩ | ⟨h1, h2, h3, hcap'⟩ | ⟨h1, h2, hcap'⟩
      · omega
      · simp only [h2, h3, ↓reduceIte]
        exact recvLoop_whole hwf hsize m hcap' (by omega) (by omega)
      · simp only [h2, ↓reduceIte]
        exact recvLoop_whole hwf hsize m hcap' (by omega) (by omega)

/-! ## Framing -/

/-- A request that comes to a handler: it parses, is no preflight, and is for the health check or has
the key. -/
def Dispatches (cfg : ServerConfig) (raw : List UInt8) (req : HttpRequest) : Prop :=
  httpParse raw = some req ∧ req.method ≠ ascii "OPTIONS" ∧
    (req.method = ascii "GET" ∧ req.path = ascii "/health" ∨ authCheckRequest cfg.apiKey req.authorization = true)

theorem handleRequest_dispatched (cfg : ServerConfig) (env : Surroundings) (raw : List UInt8) (req : HttpRequest) :
    (handleRequest cfg env raw).dispatched = some req ↔ Dispatches cfg raw req := by
  unfold handleRequest Dispatches
  cases httpParse raw with
  | none => exact iff_of_false nofun fun h => nomatch h.1
  | some r =>
    dsimp only
    split
    · next hopt =>
      refine iff_of_false nofun ?_
      rintro ⟨⟨⟩, hne, -⟩
      exact hne hopt
    · next hopt =>
      split
      · next hauth =>
        refine iff_of_false nofun ?_
        rintro ⟨⟨⟩, -, h | h⟩
        · exact hauth.1 h
        · exact hauth.2 h
      · next hauth =>
        constructor
        · rintro ⟨⟩
          refine ⟨rfl, hopt, ?_⟩
          by_contra hnone
          rw [not_or] at hnone
          exact hauth hnone
        · rintro ⟨⟨⟩, -⟩
          rfl

/-- A connection with a well-formed request of declared length `L` and some bytes behind it: it is not
refused as too large, the loop uses the length that the parser finds in the headers, and a handler runs
only with all of the body, and with nothing else. -/
def FramingOk (cfg : ServerConfig) (env : Surroundings) (R : Request) (L : Option Nat) (body : List UInt8) (sizes : List Nat) :
    Prop :=
  ∃ s, receive (R.bytes ++ body) sizes = .got s ∧
    (s.headersDone = true →
      s.contentLength = declared L ∧ ∀ req, httpParse s.buf = some req → s.contentLength = req.contentLength) ∧
    ∀ req, (handleConnection cfg env (R.bytes ++ body) sizes).dispatched = some req →
      L.getD 0 ≤ s.buf.length - R.bytes.length ∧ req.body = body.take (L.getD 0)

/-- Reading up to the first arrival of the whole request needs no more than the largest buffer, finds
the declared length in the first arrival of all headers, and ends exactly behind the body, or with a
request that comes to no handler, or inside the headers of a request with no body. -/
def FramingCondition (cfg : ServerConfig) (R : Request) (L : Option Nat) (body : List UInt8) (sizes : List Nat) : Prop :=
  ∃ t, readUpTo (R.bytes.length + L.getD 0) (arrivals (R.bytes ++ body).length sizes 0 httpRecvBuf) 0 = some t ∧
    ScansLength R (R.bytes ++ body) (arrivals (R.bytes ++ body).length sizes 0 httpRecvBuf) (declared L) ∧
    (t = R.bytes.length + L.getD 0 ∨ (∀ req, ¬ Dispatches cfg ((R.bytes ++ body).take t) req) ∨
      t < R.bytes.length ∧ L.getD 0 = 0)

/-- Framing is right exactly under the condition. -/
theorem framing_iff (cfg : ServerConfig) (env : Surroundings) {R : Request} (hwf : R.WellFormed) {L : Option Nat}
    (hL : R.Declares L) (hmax : ∀ n, L = some n → n ≤ httpMaxBodyBytes) (body : List UInt8) (sizes : List Nat) :
    FramingOk cfg env R L body sizes ↔ FramingCondition cfg R L body sizes := by
  have hfour := four_le_bytes R
  have hstart : RecvState.start = ⟨(R.bytes ++ body).take 0, httpRecvBuf, false, -1, 0⟩ := rfl
  have hlength : ∀ n, L = some n → n < 2 ^ 31 := by
    intro n hn
    have hle := hmax n hn
    rw [httpMaxBodyBytes_eq] at hle
    omega
  have hparse : ∀ {t req}, R.bytes.length ≤ t → httpParse ((R.bytes ++ body).take t) = some req →
      req = R.parsed (body.take (t - R.bytes.length)) := by
    intro t req ht hreq
    obtain ⟨k, rfl⟩ := Nat.exists_eq_add_of_le ht
    rw [List.take_length_add_append] at hreq
    rw [Nat.add_sub_cancel_left]
    exact httpParse_request hwf hreq
  by_cases hscan : ScansLength R (R.bytes ++ body) (arrivals (R.bytes ++ body).length sizes 0 httpRecvBuf) (declared L)
  · -- the length is found, so the loop reads up to the end of the body
    have hreads := recvLoop_head hwf sizes capOk_start (Nat.zero_le _) (by omega) hscan
    rw [← hstart] at hreads
    change Reads _ _ _ (receive (R.bytes ++ body) sizes) at hreads
    constructor
    · rintro ⟨s, hs, -, hdispatched⟩
      cases ho : readUpTo (R.bytes.length + L.getD 0) (arrivals (R.bytes ++ body).length sizes 0 httpRecvBuf) 0 with
      | none =>
        rw [ho] at hreads
        cases hs.symm.trans hreads
      | some t =>
        rw [ho] at hreads
        obtain ⟨cap, hgot⟩ := hreads
        cases hs.symm.trans hgot
        refine ⟨t, ho, hscan, ?_⟩
        by_cases hnone : ∀ req, ¬ Dispatches cfg ((R.bytes ++ body).take t) req
        · exact .inr (.inl hnone)
        obtain ⟨req, hreq⟩ := not_forall_not.1 hnone
        have hle := readUpTo_le (Nat.zero_le _) ho
        obtain ⟨harrived, hbody⟩ := hdispatched req (by
          rw [handleConnection, hs]
          exact (handleRequest_dispatched cfg env _ req).2 hreq)
        rw [length_take_of_le hle] at harrived
        -- a dispatched request was read in full, or it ended inside its header and declares no body
        rcases Nat.lt_or_ge t R.bytes.length with hlt | hge
        · exact .inr (.inr ⟨hlt, by omega⟩)
        · left
          rw [hparse hge hreq.1] at hbody
          change body.take (t - R.bytes.length) = body.take (L.getD 0) at hbody
          have hlen := congrArg List.length hbody
          rw [List.length_take, List.length_take] at hlen
          rw [List.length_append] at hle
          omega
    · rintro ⟨t, ht, -, hcase⟩
      have hle := readUpTo_le (Nat.zero_le _) ht
      rw [ht] at hreads
      obtain ⟨cap, hgot⟩ := hreads
      refine ⟨_, hgot, fun hdone => ?_, fun req hreq => ?_⟩
      · unfold headView at hdone ⊢
        dsimp only at hdone ⊢
        split at hdone
        · next hge =>
          rw [if_pos hge]
          exact ⟨rfl, fun req hreq => by rw [hparse hge hreq, parsed_contentLength hwf hL hlength]⟩
        · cases hdone
      · rw [handleConnection, hgot] at hreq
        have hdisp := (handleRequest_dispatched cfg env _ req).1 hreq
        dsimp only
        rw [length_take_of_le hle]
        rcases hcase with rfl | hnone | ⟨hlt, hzero⟩
        · rw [hparse (Nat.le_add_right ..) hdisp.1, Nat.add_sub_cancel_left]
          exact ⟨Nat.le_refl _, rfl⟩
        · exact absurd hdisp (hnone req)
        · have hcut := hdisp.1
          rw [List.take_append_of_le_length (by omega)] at hcut
          rw [httpParse_cut hwf hlt hcut, hzero]
          exact ⟨Nat.zero_le _, rfl⟩
  · -- at some read the scan finds another length than the declared one
    refine iff_of_false ?_ fun ⟨_, _, h, _⟩ => hscan h
    rintro ⟨s, hs, hlen, -⟩
    unfold ScansLength at hscan
    obtain ⟨u, hu⟩ := not_forall.1 hscan
    obtain ⟨hfind, hne⟩ := Classical.not_imp.1 hu
    rcases recvLoop_scans hwf sizes capOk_start (Nat.zero_le _) (by omega) hfind with hlarge | ⟨s', hs', hdone, hscanned⟩
    · rw [← hstart] at hlarge
      cases hs.symm.trans hlarge
    · rw [← hstart] at hs'
      cases hs.symm.trans hs'
      exact hne (hscanned.symm.trans (hlen hdone).1)

/-- A chat request of two bytes. -/
def twoByteRequest : Request :=
  ⟨ascii "POST", ascii "/v1/chat/completions", [(ascii "Content-Length", ascii " 2")]⟩

theorem twoByteRequest_wf : twoByteRequest.WellFormed :=
  ⟨by unfold OneLine; decide, by unfold OneLine; decide, by unfold OneLine; decide⟩

theorem twoByteRequest_declares : twoByteRequest.Declares (some 2) :=
  ⟨[], (ascii "Content-Length", ascii " 2"), [], rfl, by decide +kernel, nofun, ascii " ", ascii "2", [],
    by decide +kernel, by decide +kernel, by decide +kernel, by decide +kernel, by decide +kernel⟩

theorem framing_iff_two_bytes : FramingOk plainConfig quietSurroundings twoByteRequest (some 2) (ascii "hi") [40, 1024] := by
  refine (framing_iff plainConfig quietSurroundings twoByteRequest_wf twoByteRequest_declares ?_ (ascii "hi") [40, 1024]).2 ?_
  · rintro _ ⟨⟩
    rw [httpMaxBodyBytes_eq]
    decide
  · refine ⟨59, by decide +kernel, fun u hu => ?_, .inl (by decide +kernel)⟩
    have hfind : (arrivals (twoByteRequest.bytes ++ ascii "hi").length [40, 1024] 0 httpRecvBuf).find?
        (fun u => decide (twoByteRequest.bytes.length ≤ u)) = some 59 := by decide +kernel
    obtain rfl := Option.some.inj (hfind.symm.trans hu)
    decide +kernel

/-- A connection that ends inside the body: the handler runs with what arrived. -/
theorem cut_body_dispatched :
    ¬ ∀ (cfg : ServerConfig) (env : Surroundings) (R : Request) (L : Option Nat) (body : List UInt8) (sizes : List Nat),
      R.WellFormed → R.Declares L → (∀ n, L = some n → n ≤ httpMaxBodyBytes) → FramingOk cfg env R L body sizes := by
  intro h
  obtain ⟨s, hs, -, hdispatched⟩ := h plainConfig quietSurroundings twoByteRequest (some 2) (ascii "h") [1024]
    twoByteRequest_wf twoByteRequest_declares (by rintro _ ⟨⟩; rw [httpMaxBodyBytes_eq]; decide)
  have hgot : receive (twoByteRequest.bytes ++ ascii "h") [1024] =
      .got ⟨twoByteRequest.bytes ++ ascii "h", 8192, true, 2, 57⟩ := by decide +kernel
  have hran : (handleConnection plainConfig quietSurroundings (twoByteRequest.bytes ++ ascii "h") [1024]).dispatched =
      some (twoByteRequest.parsed (ascii "h")) := by decide +kernel
  cases hs.symm.trans hgot
  have harrived := (hdispatched _ hran).1
  revert harrived
  decide +kernel

end BitForge.Api
