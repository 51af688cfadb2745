/-
Well-formed requests, and what the parser makes of one that arrived in full with bytes behind it,
and of one that was cut short.
-/
import BitForge.Api.HttpParse
import Mathlib.Tactic

namespace BitForge.Api

open BitForge.Lib

/-! ## Well-formed requests -/

/-- A request up to its blank line; a header is its name and what stands behind the colon. -/
structure Request where
  method : List UInt8
  target : List UInt8
  headers : List (List UInt8 × List UInt8)
deriving DecidableEq, Repr

def headerBytes (h : List UInt8 × List UInt8) : List UInt8 := h.1 ++ 58 :: h.2

/-- The lines of a header section, the blank line at its end included. -/
def headerSection (hs : List (List UInt8 × List UInt8)) : List UInt8 :=
  hs.flatMap (fun h => headerBytes h ++ [13, 10]) ++ [13, 10]

def Request.line (R : Request) : List UInt8 := R.method ++ 32 :: (R.target ++ ascii " HTTP/1.1")

def Request.bytes (R : Request) : List UInt8 := R.line ++ 13 :: 10 :: headerSection R.headers

/-- No NUL, line feed or carriage return. -/
def OneLine (l : List UInt8) : Prop := 0 ∉ l ∧ 10 ∉ l ∧ 13 ∉ l

structure Request.WellFormed (R : Request) : Prop where
  method : OneLine R.method ∧ 32 ∉ R.method
  target : OneLine R.target ∧ 32 ∉ R.target
  headers : ∀ h ∈ R.headers, OneLine h.1 ∧ 58 ∉ h.1 ∧ OneLine h.2

/-- Names are compared without case. -/
def Named (name : String) (h : List UInt8 × List UInt8) : Prop := h.1.map toLower = ascii name

instance (name : String) : DecidablePred (Named name) := fun h => inferInstanceAs (Decidable (h.1.map toLower = ascii name))

/-- The `Content-Length` that a request declares: none, or one decimal number with blanks around it. -/
def Request.Declares (R : Request) : Option Nat → Prop
  | none => ∀ h ∈ R.headers, ¬ Named "content-length" h
  | some n => ∃ before h after, R.headers = before ++ h :: after ∧ Named "content-length" h ∧
      (∀ h' ∈ before ++ after, ¬ Named "content-length" h') ∧
      ∃ left ds right, h.2 = left ++ ds ++ right ∧ (∀ c ∈ left ++ right, c = 32 ∨ c = 9) ∧
        ds ≠ [] ∧ (∀ d ∈ ds, isDigit d = true) ∧ decimal ds = n

/-! ## The request line -/

theorem takeWhile_append_stop {p : UInt8 → Bool} {l : List UInt8} {c : UInt8} (hl : ∀ x ∈ l, p x = true) (hc : p c = false)
    (s : List UInt8) : (l ++ c :: s).takeWhile p = l := by
  rw [List.takeWhile_append_of_pos hl, List.takeWhile_cons, if_neg (by rw [hc]; exact Bool.false_ne_true), List.append_nil]

/-- A token of at most `n` bytes before a stop byte is taken whole. -/
theorem take_takeWhile {p : UInt8 → Bool} {a : List UInt8} {n : Nat} {c : UInt8} {rest : List UInt8}
    (h : a.drop ((a.takeWhile p).take n).length = c :: rest) :
    ∃ m, (a.takeWhile p).take n = m ∧ a = m ++ c :: rest ∧ (∀ x ∈ m, p x = true) ∧ m.length ≤ n := by
  have hpre : (a.takeWhile p).take n <+: a := (List.take_prefix ..).trans (List.takeWhile_prefix p)
  obtain ⟨more, hmore⟩ := hpre
  refine ⟨(a.takeWhile p).take n, rfl, ?_, fun x hx => ?_, List.length_take_le ..⟩
  · generalize (a.takeWhile p).take n = m at h hmore
    subst hmore
    rw [List.drop_left] at h
    rw [h]
  · exact List.all_eq_true.1 List.all_takeWhile x (List.mem_of_mem_take hx)

theorem parseRequestLine_eq_some {a m p q : List UInt8} (h : parseRequestLine a = some (m, p, q)) :
    ∃ q', q = 32 :: q' ∧ a = m ++ 32 :: (p ++ 32 :: q') ∧ 32 ∉ m ∧ (∀ c ∈ p, c ≠ 32 ∧ c ≠ 13) ∧ m.length ≤ 15 ∧ p.length ≤ 255 := by
  unfold parseRequestLine at h
  dsimp only at h
  split at h
  · next s hs =>
    split at h
    · next q' hq =>
      cases h
      obtain ⟨m, hm, ha, hmem, hlen⟩ := take_takeWhile hs
      obtain ⟨p, hp, hs', hmem', hlen'⟩ := take_takeWhile hq
      rw [hm, hp]
      refine ⟨q', rfl, by rw [ha, hs'], fun hc => ?_, fun c hc => ?_, hlen, hlen'⟩
      · simpa using hmem 32 hc
      · simpa using hmem' c hc
    · cases h
  · cases h

theorem parseRequestLine_of_line {m p : List UInt8} (hm : 32 ∉ m) (hp : ∀ c ∈ p, c ≠ 32 ∧ c ≠ 13) (hm15 : m.length ≤ 15)
    (hp255 : p.length ≤ 255) (q : List UInt8) :
    parseRequestLine (m ++ 32 :: (p ++ 32 :: q)) = some (m, p, 32 :: q) := by
  have hmethod : ((m ++ 32 :: (p ++ 32 :: q)).takeWhile (· ≠ 32)).take 15 = m := by
    rw [takeWhile_append_stop (fun x hx => by simpa using fun h : x = 32 => hm (h ▸ hx)) (by decide),
      List.take_of_length_le hm15]
  have hpath : ((p ++ 32 :: q).takeWhile fun c => c ≠ 32 ∧ c ≠ 13).take 255 = p := by
    rw [takeWhile_append_stop (fun x hx => by simpa using hp x hx) (by decide), List.take_of_length_le hp255]
  simp only [parseRequestLine, hmethod, List.drop_left, hpath]

/-- More bytes behind a parsed request line do not change it. -/
theorem parseRequestLine_append {a m p q : List UInt8} (h : parseRequestLine a = some (m, p, q)) (b : List UInt8) :
    parseRequestLine (a ++ b) = some (m, p, q ++ b) := by
  obtain ⟨q', rfl, rfl, hm, hp, hm15, hp255⟩ := parseRequestLine_eq_some h
  rw [List.append_assoc, List.cons_append, List.append_assoc, List.cons_append]
  exact parseRequestLine_of_line hm hp hm15 hp255 (q' ++ b)

/-! ## Header lines -/

theorem parseHeaders_skip : ∀ {l : List UInt8}, 10 ∉ l → ∀ (s : List UInt8) (req : HttpRequest),
    parseHeaders false (l ++ 10 :: s) req = parseHeaders true s req
  | [], _, s, req => by rw [List.nil_append, parseHeaders, if_pos rfl]
  | c :: l, hl, s, req => by
    rw [List.mem_cons, not_or] at hl
    rw [List.cons_append, parseHeaders, if_neg (fun h => hl.1 h.symm)]
    exact parseHeaders_skip hl.2 s req

theorem parseHeaders_line {l : List UInt8} (hl : OneLine l) (hne : l ≠ []) (s : List UInt8) (req : HttpRequest) :
    parseHeaders true (l ++ 13 :: 10 :: s) req = parseHeaders true s (req.addHeader (l ++ 13 :: 10 :: s)) := by
  cases l with
  | nil => exact absurd rfl hne
  | cons c l =>
    obtain ⟨-, h10, h13⟩ := hl
    rw [List.mem_cons, not_or] at h10 h13
    rw [List.cons_append, parseHeaders, if_neg (fun h => h13.1 h.1.symm), if_neg (fun h => h10.1 h.symm)]
    have hskip : 10 ∉ l ++ [13] := by simp [h10.2]
    have h := parseHeaders_skip hskip s (req.addHeader (c :: (l ++ 13 :: 10 :: s)))
    rwa [List.append_assoc] at h

theorem parseHeaders_blank (s : List UInt8) (req : HttpRequest) : parseHeaders true (13 :: 10 :: s) req = (req, s) := by
  rw [parseHeaders, if_pos ⟨rfl, rfl⟩]
  rfl

/-- What the header lines add, one after the other; `s` follows them. -/
def addHeaders (s : List UInt8) : List (List UInt8 × List UInt8) → HttpRequest → HttpRequest
  | [], req => req
  | h :: hs, req => addHeaders s hs (req.addHeader (headerBytes h ++ 13 :: 10 :: (headerSection hs ++ s)))

theorem headerSection_cons (h : List UInt8 × List UInt8) (hs : List (List UInt8 × List UInt8)) :
    headerSection (h :: hs) = headerBytes h ++ 13 :: 10 :: headerSection hs := by
  unfold headerSection
  rw [List.flatMap_cons, List.append_assoc, List.append_assoc]
  rfl

theorem oneLine_headerBytes {h : List UInt8 × List UInt8} (h1 : OneLine h.1) (h2 : OneLine h.2) : OneLine (headerBytes h) := by
  obtain ⟨h10, h11, h12⟩ := h1
  obtain ⟨h20, h21, h22⟩ := h2
  refine ⟨?_, ?_, ?_⟩ <;> simp [headerBytes, *]

theorem parseHeaders_section {hs : List (List UInt8 × List UInt8)} (hwf : ∀ h ∈ hs, OneLine h.1 ∧ 58 ∉ h.1 ∧ OneLine h.2)
    (s : List UInt8) (req : HttpRequest) : parseHeaders true (headerSection hs ++ s) req = (addHeaders s hs req, s) := by
  induction hs generalizing req with
  | nil => exact parseHeaders_blank s req
  | cons h hs ih =>
    rw [List.forall_mem_cons] at hwf
    obtain ⟨h1, -, h2⟩ := hwf.1
    rw [headerSection_cons, List.append_assoc, List.cons_append, List.cons_append,
      parseHeaders_line (oneLine_headerBytes h1 h2) (by simp [headerBytes]), ih hwf.2]
    rfl

/-- The blank line is where it is, whatever follows, or it was not reached. -/
theorem parseHeaders_more : ∀ (b : Bool) (s : List UInt8) (req : HttpRequest),
    (parseHeaders b s req).2 = [] ∨ ∀ more req', (parseHeaders b (s ++ more) req').2 = (parseHeaders b s req).2 ++ more
  | b, [], req => by
    left
    cases b <;> rfl
  | true, c :: s, req => by
    by_cases hblank : c = 13 ∧ s.head? = some 10
    · obtain ⟨rfl, hs⟩ := hblank
      obtain ⟨s', rfl⟩ := List.head?_eq_some_iff.1 hs
      exact .inr fun more req' => by rw [parseHeaders_blank, List.cons_append, List.cons_append, parseHeaders_blank]
    by_cases hlf : c = 10
    · subst hlf
      exact .inr fun more req' => by
        rw [parseHeaders, if_neg hblank, if_pos rfl, List.cons_append, parseHeaders, if_neg (fun h => absurd h.1 (by decide)),
          if_pos rfl]
    · rw [parseHeaders, if_neg hblank, if_neg hlf]
      cases s with
      | nil => exact .inl rfl
      | cons d s =>
        refine (parseHeaders_more false (d :: s) _).imp_right fun h more req' => ?_
        have hblank' : ¬ (c = 13 ∧ (d :: s ++ more).head? = some 10) := hblank
        rw [List.cons_append, parseHeaders, if_neg hblank', if_neg hlf]
        exact h more _
  | false, c :: s, req => by
    by_cases hlf : c = 10
    · rw [parseHeaders, if_pos hlf]
      refine (parseHeaders_more true s req).imp_right fun h more req' => ?_
      rw [List.cons_append, parseHeaders, if_pos hlf]
      exact h more req'
    · rw [parseHeaders, if_neg hlf]
      refine (parseHeaders_more false s req).imp_right fun h more req' => ?_
      rw [List.cons_append, parseHeaders, if_neg hlf]
      exact h more req'

/-! ## What one header adds -/

theorem split_unique {c : UInt8} {m m' x y : List UInt8} (hm : c ∉ m) (hm' : c ∉ m') (h : m ++ c :: x = m' ++ c :: y) :
    m = m' ∧ x = y := by
  have htake : ∀ {l s : List UInt8}, c ∉ l → (l ++ c :: s).takeWhile (· ≠ c) = l := fun hl =>
    takeWhile_append_stop (p := fun x => decide (x ≠ c)) (fun x hx => by simpa using fun h : x = c => hl (h ▸ hx)) (by simp) _
  have heq : m = m' := by rw [← htake hm (s := x), h, htake hm']
  subst heq
  exact ⟨rfl, (List.cons.inj (List.append_cancel_left h)).2⟩

theorem toLower_colon {c : UInt8} (h : toLower c = 58) : c = 58 := by
  unfold toLower at h
  split at h
  · next hc =>
    have hval := congrArg UInt8.toNat h
    have hlow : 65 ≤ c.toNat := UInt8.le_iff_toNat_le.1 hc.1
    have hhigh : c.toNat ≤ 90 := UInt8.le_iff_toNat_le.1 hc.2
    rw [UInt8.toNat_add] at hval
    change (c.toNat + 32) % 256 = 58 at hval
    omega
  · exact h

/-- A header line starts with a name and a colon exactly if that is its name. -/
theorem startsNoCase_named {h : List UInt8 × List UInt8} (hcolon : 58 ∉ h.1) (name : String) (s : List UInt8)
    (hname : 58 ∉ ascii name) (hlower : (ascii name).map toLower = ascii name) :
    startsNoCase (headerBytes h ++ s) (ascii name ++ [58]) = true ↔ Named name h := by
  unfold startsNoCase Named headerBytes
  rw [List.isPrefixOf_iff_prefix, List.map_append, hlower, List.append_assoc, List.map_append, List.cons_append,
    List.map_cons]
  have hlow : 58 ∉ h.1.map toLower := by
    intro hmem
    obtain ⟨c, hc, hc'⟩ := List.mem_map.1 hmem
    exact hcolon (toLower_colon hc' ▸ hc)
  constructor
  · rintro ⟨w, hw⟩
    rw [List.append_assoc] at hw
    exact (split_unique hname hlow hw).1.symm
  · intro heq
    rw [heq]
    exact ⟨(h.2 ++ s).map toLower, by rw [List.append_assoc]; rfl⟩

theorem drop_name {h : List UInt8 × List UInt8} {name : String} (hn : Named name h) (s : List UInt8) :
    (headerBytes h ++ s).drop ((ascii name).length + 1) = h.2 ++ s := by
  have hlen : h.1.length = (ascii name).length := by
    rw [← List.length_map (f := toLower), hn]
  unfold headerBytes
  rw [← hlen, List.append_assoc, List.cons_append, ← List.drop_drop, List.drop_left]
  rfl

theorem addHeader_eq {h : List UInt8 × List UInt8} (hcolon : 58 ∉ h.1) (s : List UInt8) (req : HttpRequest) :
    req.addHeader (headerBytes h ++ s) =
      if Named "content-length" h then { req with contentLength := lengthValue (h.2 ++ s) }
      else if Named "origin" h then { req with origin := some (copyHeaderValue (h.2 ++ s) 256) }
      else if Named "authorization" h then { req with authorization := some (copyHeaderValue (h.2 ++ s) 512) }
      else req := by
  have hlength := startsNoCase_named hcolon "content-length" s (by decide) (by decide)
  have horigin := startsNoCase_named hcolon "origin" s (by decide) (by decide)
  have hauth := startsNoCase_named hcolon "authorization" s (by decide) (by decide)
  unfold HttpRequest.addHeader
  change startsNoCase (headerBytes h ++ s) (ascii "content-length:") = true ↔ _ at hlength
  change startsNoCase (headerBytes h ++ s) (ascii "origin:") = true ↔ _ at horigin
  change startsNoCase (headerBytes h ++ s) (ascii "authorization:") = true ↔ _ at hauth
  simp only [hlength, horigin, hauth]
  split
  · next hn => rw [show (headerBytes h ++ s).drop 15 = h.2 ++ s from drop_name hn s]
  · split
    · next hn => rw [show (headerBytes h ++ s).drop 7 = h.2 ++ s from drop_name hn s]
    · split
      · next hn => rw [show (headerBytes h ++ s).drop 14 = h.2 ++ s from drop_name hn s]
      · rfl

/-! ## The declared length -/

theorem dropWhile_dropWhile {p q : UInt8 → Bool} (hpq : ∀ c, p c = true → q c = true) (l : List UInt8) :
    (l.dropWhile p).dropWhile q = l.dropWhile q := by
  induction l with
  | nil => rfl
  | cons c l ih =>
    rw [List.dropWhile_cons]
    split
    · next hc => rw [ih, List.dropWhile_cons, if_pos (hpq c hc)]
    · rfl

theorem castInt_of_lt {n : Nat} (h : n < 2 ^ 31) : castInt n = n := by
  unfold castInt
  omega

/-- A decimal number of at most 31 bits with blanks around it is read as it is. -/
theorem lengthValue_decimal {left ds right s : List UInt8} (hblank : ∀ c ∈ left ++ right, c = 32 ∨ c = 9) (hne : ds ≠ [])
    (hds : ∀ d ∈ ds, isDigit d = true) (hlt : decimal ds < 2 ^ 31) :
    lengthValue (left ++ ds ++ right ++ 13 :: s) = decimal ds := by
  have hspace : ∀ c ∈ left, isSpace c = true := by
    intro c hc
    rcases hblank c (List.mem_append_left _ hc) with rfl | rfl <;> decide
  have hstop : ∃ c t, right ++ 13 :: s = c :: t ∧ isDigit c = false := by
    cases right with
    | nil => exact ⟨13, s, rfl, by decide⟩
    | cons c t =>
      refine ⟨c, t ++ 13 :: s, rfl, ?_⟩
      rcases hblank c (List.mem_append_right _ List.mem_cons_self) with rfl | rfl <;> decide
  obtain ⟨c, t, hc, hdigit⟩ := hstop
  obtain ⟨d, ds', rfl⟩ := List.exists_cons_of_ne_nil hne
  have hd := hds d List.mem_cons_self
  have hdspace : isSpace d = false := by
    unfold isDigit at hd
    unfold isSpace
    have hd' := of_decide_eq_true hd
    have h48 : 48 ≤ d.toNat := UInt8.le_iff_toNat_le.1 hd'.1
    rw [decide_eq_false_iff_not]
    rintro (rfl | h)
    · exact absurd h48 (by decide)
    · have h13 : d.toNat ≤ 13 := UInt8.le_iff_toNat_le.1 h.2
      omega
  have hdrop : (left ++ (d :: ds') ++ right ++ 13 :: s).dropWhile isSpace = d :: ds' ++ c :: t := by
    rw [List.append_assoc, List.append_assoc, List.dropWhile_append_of_pos hspace, hc, List.cons_append,
      List.dropWhile_cons, hdspace]
    rfl
  have htake : (d :: ds' ++ c :: t).takeWhile isDigit = d :: ds' := takeWhile_append_stop hds hdigit t
  unfold lengthValue atoi
  rw [dropWhile_dropWhile (by intro c hc; rw [of_decide_eq_true hc]; decide), hdrop]
  have hmin : min (decimal (d :: ds') : Int) (2 ^ 63 - 1) = decimal (d :: ds') := by omega
  split
  · next h =>
    cases h
    exact absurd hd (by decide)
  · next h =>
    cases h
    exact absurd hd (by decide)
  · rw [htake, hmin]
    exact castInt_of_lt hlt

/-- The number that the loop and the parser should find: -1 where none is declared. -/
def declared : Option Nat → Int
  | none => -1
  | some n => n

theorem addHeaders_contentLength_none {hs : List (List UInt8 × List UInt8)}
    (hwf : ∀ h ∈ hs, OneLine h.1 ∧ 58 ∉ h.1 ∧ OneLine h.2) (hnone : ∀ h ∈ hs, ¬ Named "content-length" h) (s : List UInt8)
    (req : HttpRequest) : (addHeaders s hs req).contentLength = req.contentLength := by
  induction hs generalizing req with
  | nil => rfl
  | cons h hs ih =>
    rw [List.forall_mem_cons] at hwf hnone
    rw [addHeaders, ih hwf.2 hnone.2, addHeader_eq hwf.1.2.1, if_neg hnone.1]
    split_ifs <;> rfl

theorem addHeaders_contentLength {hs before after : List (List UInt8 × List UInt8)} {h : List UInt8 × List UInt8}
    (hwf : ∀ h ∈ hs, OneLine h.1 ∧ 58 ∉ h.1 ∧ OneLine h.2) (heq : hs = before ++ h :: after)
    (hnamed : Named "content-length" h) (hafter : ∀ h' ∈ after, ¬ Named "content-length" h') (s : List UInt8)
    (req : HttpRequest) :
    ∃ t, (addHeaders s hs req).contentLength = lengthValue (h.2 ++ 13 :: t) := by
  subst heq
  induction before generalizing req with
  | nil =>
    rw [List.nil_append, List.forall_mem_cons] at hwf
    refine ⟨10 :: (headerSection after ++ s), ?_⟩
    rw [List.nil_append, addHeaders, addHeaders_contentLength_none hwf.2 hafter, addHeader_eq hwf.1.2.1, if_pos hnamed]
  | cons b before ih =>
    rw [List.cons_append, List.forall_mem_cons] at hwf
    exact ih (req.addHeader _) hwf.2

/-! ## Whole requests and cut ones -/

variable {R : Request}

theorem parse_section (hwf : R.WellFormed) {s m p q : List UInt8} (h : parseRequestLine (R.bytes ++ s) = some (m, p, q)) :
    m = R.method ∧ p = R.target ∧ ∀ req, parseHeaders false q req = (addHeaders s R.headers req, s) := by
  obtain ⟨q', rfl, hbytes, hm, hp, -, -⟩ := parseRequestLine_eq_some h
  have hsplit : R.bytes ++ s =
      R.method ++ 32 :: (R.target ++ 32 :: (ascii "HTTP/1.1" ++ 13 :: 10 :: (headerSection R.headers ++ s))) := by
    unfold Request.bytes Request.line
    simp only [List.append_assoc, List.cons_append]
    rfl
  rw [hsplit] at hbytes
  obtain ⟨rfl, hrest⟩ := split_unique hwf.method.2 hm hbytes
  obtain ⟨rfl, hq⟩ := split_unique hwf.target.2 (fun hc => (hp 32 hc).1 rfl) hrest
  refine ⟨rfl, rfl, fun req => ?_⟩
  have hskip := parseHeaders_skip (l := ascii " HTTP/1.1\r") (by decide) (headerSection R.headers ++ s) req
  rw [parseHeaders_section hwf.headers] at hskip
  rw [← hskip, ← hq]
  rfl

theorem noNul_section {hs : List (List UInt8 × List UInt8)} (hwf : ∀ h ∈ hs, OneLine h.1 ∧ 58 ∉ h.1 ∧ OneLine h.2) :
    0 ∉ headerSection hs := by
  induction hs with
  | nil => decide
  | cons h hs ih =>
    rw [List.forall_mem_cons] at hwf
    have hline := (oneLine_headerBytes hwf.1.1 hwf.1.2.2).1
    rw [headerSection_cons]
    simp [hline, ih hwf.2]

theorem noNul_bytes (hwf : R.WellFormed) : 0 ∉ R.bytes := by
  have hversion : 0 ∉ ascii " HTTP/1.1" := by decide
  unfold Request.bytes Request.line
  simp [hwf.method.1.1, hwf.target.1.1, hversion, noNul_section hwf.headers]

/-- What the parser makes of a request with some bytes behind it. -/
def Request.parsed (R : Request) (rest : List UInt8) : HttpRequest :=
  { addHeaders (untilNul rest) R.headers ⟨R.method, R.target, [], -1, none, none⟩ with body := rest }

theorem httpParse_request (hwf : R.WellFormed) {rest : List UInt8} {req : HttpRequest}
    (h : httpParse (R.bytes ++ rest) = some req) : req = R.parsed rest := by
  have hbuf := untilNul_append (noNul_bytes hwf) rest
  unfold httpParse at h
  rw [hbuf] at h
  obtain ⟨⟨m, p, q⟩, hline, rfl⟩ := Option.map_eq_some_iff.1 h
  obtain ⟨rfl, rfl, hsection⟩ := parse_section hwf hline
  dsimp only
  rw [hsection, List.length_append, Nat.add_sub_cancel, List.drop_left]
  rfl

/-- A request parses exactly if its method and its target fit their fields. -/
theorem httpParse_request_eq (hwf : R.WellFormed) (rest : List UInt8) :
    httpParse (R.bytes ++ rest) = if R.method.length ≤ 15 ∧ R.target.length ≤ 255 then some (R.parsed rest) else none := by
  have hbytes : R.bytes ++ untilNul rest =
      R.method ++ 32 :: (R.target ++ 32 :: (ascii "HTTP/1.1" ++ 13 :: 10 :: (headerSection R.headers ++ untilNul rest))) := by
    unfold Request.bytes Request.line
    simp only [List.append_assoc, List.cons_append]
    rfl
  have htarget : ∀ c ∈ R.target, c ≠ 32 ∧ c ≠ 13 :=
    fun c hc => ⟨fun h => hwf.target.2 (h ▸ hc), fun h => hwf.target.1.2.2 (h ▸ hc)⟩
  cases h : httpParse (R.bytes ++ rest) with
  | none =>
    rw [if_neg]
    rintro ⟨hm, ht⟩
    unfold httpParse at h
    have hline := Option.map_eq_none_iff.1 h
    rw [untilNul_append (noNul_bytes hwf), hbytes, parseRequestLine_of_line hwf.method.2 htarget hm ht] at hline
    cases hline
  | some req =>
    have hreq := httpParse_request hwf h
    unfold httpParse at h
    obtain ⟨⟨m, p, q⟩, hline, -⟩ := Option.map_eq_some_iff.1 h
    obtain ⟨-, -, -, -, -, hm, hp⟩ := parseRequestLine_eq_some hline
    rw [untilNul_append (noNul_bytes hwf)] at hline
    obtain ⟨rfl, rfl, -⟩ := parse_section hwf hline
    rw [if_pos ⟨hm, hp⟩, hreq]

/-- A request that was cut short has no body. -/
theorem httpParse_cut (hwf : R.WellFormed) {t : Nat} (ht : t < R.bytes.length) {req : HttpRequest}
    (h : httpParse (R.bytes.take t) = some req) : req.body = [] := by
  have hnul : 0 ∉ R.bytes.take t := fun hc => noNul_bytes hwf (List.mem_of_mem_take hc)
  unfold httpParse at h
  rw [untilNul_of_noNul hnul] at h
  obtain ⟨⟨m, p, q⟩, hline, rfl⟩ := Option.map_eq_some_iff.1 h
  have hfull := parseRequestLine_append hline (R.bytes.drop t)
  rw [List.take_append_drop] at hfull
  obtain ⟨-, -, hsection⟩ := @parse_section R hwf [] m p _ (by rw [List.append_nil]; exact hfull)
  dsimp only
  rcases parseHeaders_more false q ⟨m, p, [], -1, none, none⟩ with hrest | hrest
  · rw [hrest, List.length_nil, Nat.sub_zero, List.drop_length]
  · have hnil := hrest (R.bytes.drop t) ⟨m, p, [], -1, none, none⟩
    rw [hsection] at hnil
    have hdrop := (List.append_eq_nil_iff.1 hnil.symm).2
    rw [List.drop_eq_nil_iff] at hdrop
    omega

theorem parsed_contentLength (hwf : R.WellFormed) {L : Option Nat} (hL : R.Declares L) (hmax : ∀ n, L = some n → n < 2 ^ 31)
    (rest : List UInt8) : (R.parsed rest).contentLength = declared L := by
  cases L with
  | none => exact addHeaders_contentLength_none hwf.headers hL _ _
  | some n =>
    obtain ⟨before, h, after, heq, hnamed, hothers, left, ds, right, hvalue, hblank, hne, hds, rfl⟩ := hL
    obtain ⟨t, ht⟩ := addHeaders_contentLength hwf.headers heq hnamed
      (fun h' hh' => hothers h' (List.mem_append_right _ hh')) (untilNul rest) ⟨R.method, R.target, [], -1, none, none⟩
    rw [hvalue, lengthValue_decimal hblank hne hds (hmax _ rfl)] at ht
    exact ht

end BitForge.Api
