/-
The gate of `handle_connection`: with a key of at most 503 characters a handler runs only for a request
that carries it, a request that carries it is not refused, and a wrong key does not show in the
response. A longer key does not fit the field that the header is copied to.
-/
import BitForge.Api.Framing

namespace BitForge.Api

open BitForge.Lib

/-! ## The key's header -/

/-- A key that can be configured: not empty, on one line and with no space at its start. -/
structure ApiKey (K : List UInt8) : Prop where
  nonempty : K ≠ []
  oneLine : OneLine K
  noSpace : K.head? ≠ some 32

/-- The value of the header that carries a key. -/
def bearer (K : List UInt8) : List UInt8 := ascii "Bearer " ++ K

/-- The complete values of the `Authorization` lines in a header section, at the start of a line or
inside one. -/
def authValues : Bool → List UInt8 → List (List UInt8)
  | _, [] => []
  | true, c :: s =>
    if c = 13 ∧ s.head? = some 10 then []
    else if c = 10 then []
    else if startsNoCase (c :: s) (ascii "authorization:") then headerValue ((c :: s).drop 14) :: authValues false s
    else authValues false s
  | false, c :: s => if c = 10 then authValues true s else authValues false s

/-- No NUL stands before the blank line. -/
def HeadersNoNul : Bool → List UInt8 → Prop
  | _, [] => True
  | true, c :: s =>
    if c = 13 ∧ s.head? = some 10 then True else if c = 10 then True else c ≠ 0 ∧ HeadersNoNul false s
  | false, c :: s => c ≠ 0 ∧ if c = 10 then HeadersNoNul true s else HeadersNoNul false s

theorem zipWith_xor : ∀ {a b : List UInt8}, a.length = b.length → ((∀ x ∈ List.zipWith (· ^^^ ·) a b, x = 0) ↔ a = b)
  | [], [], _ => by simp
  | x :: a, y :: b, h => by
    rw [List.zipWith_cons_cons, List.forall_mem_cons, zipWith_xor (Nat.succ.inj h), UInt8.xor_eq_zero_iff, List.cons.injEq]

/-- `constant_time_eq` compares the whole texts. -/
theorem constantTimeEq_iff (a b : List UInt8) : constantTimeEq a b = true ↔ a = b := by
  unfold constantTimeEq
  split
  · next hlen =>
    refine iff_of_false Bool.false_ne_true fun h => hlen ?_
    rw [h]
  · next hlen =>
    rw [decide_eq_true_iff]
    have hor : ∀ (xs : List UInt8) (d : UInt8), xs.foldl (· ||| ·) d = 0 ↔ d = 0 ∧ ∀ x ∈ xs, x = 0 := by
      intro xs
      induction xs with
      | nil => simp
      | cons x xs ih =>
        intro d
        rw [List.foldl_cons, ih, UInt8.or_eq_zero_iff, List.forall_mem_cons, and_assoc]
    rw [hor]
    simp only [true_and]
    exact zipWith_xor (Classical.not_not.1 hlen)

theorem authCheckRequest_iff (K : List UInt8) (header : Option (List UInt8)) :
    authCheckRequest (some K) header = true ↔ header = some (bearer K) := by
  unfold authCheckRequest bearer
  cases header with
  | none => exact iff_of_false Bool.false_ne_true nofun
  | some value =>
    dsimp only
    rw [Bool.and_eq_true, constantTimeEq_iff, List.isPrefixOf_iff_prefix, Option.some_inj]
    constructor
    · rintro ⟨⟨rest, rfl⟩, hkey⟩
      rw [← hkey]
      rfl
    · rintro rfl
      exact ⟨⟨K, rfl⟩, rfl⟩

/-! ## What the parser keeps of the header -/

theorem startsNoCase_head {p pat t : List UInt8} {c : UInt8} (h : startsNoCase p pat = true) (hpat : pat.map toLower = c :: t) :
    (p.map toLower).head? = some c := by
  unfold startsNoCase at h
  rw [hpat, List.isPrefixOf_iff_prefix] at h
  obtain ⟨s, hs⟩ := h
  rw [← hs]
  rfl

theorem addHeader_authorization (req : HttpRequest) (p : List UInt8) :
    (req.addHeader p).authorization =
      if startsNoCase p (ascii "authorization:") then some (copyHeaderValue (p.drop 14) 512) else req.authorization := by
  have hother : ∀ {pat t : List UInt8} {c : UInt8}, startsNoCase p pat = true → pat.map toLower = c :: t → c ≠ 97 →
      startsNoCase p (ascii "authorization:") = false := by
    intro pat t c h hpat hc
    rw [Bool.eq_false_iff]
    intro hauth
    have hhead := startsNoCase_head hauth (show (ascii "authorization:").map toLower = 97 :: ascii "uthorization:" by decide)
    rw [startsNoCase_head h hpat] at hhead
    exact hc (Option.some.inj hhead)
  unfold HttpRequest.addHeader
  split
  · next h =>
    rw [hother h (show (ascii "content-length:").map toLower = 99 :: ascii "ontent-length:" by decide) (by decide)]
    rfl
  · split
    · next h =>
      rw [hother h (show (ascii "origin:").map toLower = 111 :: ascii "rigin:" by decide) (by decide)]
      rfl
    · split <;> rfl

theorem isPrefixOf_untilNul : ∀ (pat s : List UInt8), 0 ∉ pat →
    pat.isPrefixOf ((untilNul s).map toLower) = pat.isPrefixOf (s.map toLower)
  | [], s, _ => by simp
  | p :: pat, [], _ => rfl
  | p :: pat, c :: s, h => by
    rw [List.mem_cons, not_or] at h
    by_cases hc : c = 0
    · subst hc
      have hp : (p == toLower 0) = false := beq_eq_false_iff_ne.2 fun heq => h.1 heq.symm
      rw [List.map_cons, List.isPrefixOf_cons_cons, hp, Bool.false_and]
      rfl
    · rw [untilNul_cons hc, List.map_cons, List.map_cons, List.isPrefixOf_cons_cons, List.isPrefixOf_cons_cons,
        isPrefixOf_untilNul pat s h.2]

theorem headerValue_untilNul : ∀ (s : List UInt8), HeadersNoNul false s → headerValue (untilNul s) = headerValue s
  | s, h => by
    have htake : ∀ s : List UInt8, HeadersNoNul false s →
        (untilNul s).takeWhile (fun c => decide (c ≠ 13 ∧ c ≠ 10)) = s.takeWhile (fun c => decide (c ≠ 13 ∧ c ≠ 10)) := by
      intro s
      induction s with
      | nil => exact fun _ => rfl
      | cons c s ih =>
        rintro ⟨hc, hs⟩
        rw [untilNul_cons hc, List.takeWhile_cons, List.takeWhile_cons]
        split
        · next hstop =>
          have hne : c ≠ 10 := (of_decide_eq_true hstop).2
          rw [if_neg hne] at hs
          rw [ih hs]
        · rfl
    unfold headerValue
    induction s with
    | nil => rfl
    | cons c s ih =>
      obtain ⟨hc, hs⟩ := h
      by_cases h32 : c = 32
      · subst h32
        rw [if_neg (by decide)] at hs
        rw [untilNul_cons hc, List.dropWhile_cons, if_pos (by decide), List.dropWhile_cons, if_pos (by decide)]
        exact ih hs
      · rw [untilNul_cons hc, List.dropWhile_cons, if_neg (by simpa using h32), List.dropWhile_cons,
          if_neg (by simpa using h32), ← untilNul_cons hc]
        exact htake (c :: s) ⟨hc, hs⟩

theorem headersNoNul_append : ∀ {l s : List UInt8}, 10 ∉ l → HeadersNoNul false (l ++ s) → HeadersNoNul false s
  | [], _, _, h => h
  | c :: l, s, hl, h => by
    rw [List.mem_cons, not_or] at hl
    obtain ⟨-, hs⟩ := h
    rw [if_neg fun heq => hl.1 heq.symm] at hs
    exact headersNoNul_append hl.2 hs

/-- Where the line is an `Authorization` header, its value is the same before the first NUL. -/
theorem authorization_untilNul {c : UInt8} {s : List UInt8} (hc : c ≠ 0) (hs : HeadersNoNul false s)
    (h : startsNoCase (c :: s) (ascii "authorization:") = true) :
    headerValue ((c :: untilNul s).drop 14) = headerValue ((c :: s).drop 14) := by
  unfold startsNoCase at h
  rw [List.isPrefixOf_iff_prefix] at h
  obtain ⟨more, hmore⟩ := h
  have hpat : (ascii "authorization:").map toLower = ((c :: s).take 14).map toLower := by
    rw [List.map_take, ← hmore]
    rfl
  have hlf : 10 ∉ (c :: s).take 14 := by
    intro hmem
    have hlow := List.mem_map_of_mem (f := toLower) hmem
    rw [← hpat] at hlow
    revert hlow
    decide
  have hnul : 0 ∉ (c :: s).take 14 := by
    intro hmem
    have hlow := List.mem_map_of_mem (f := toLower) hmem
    rw [← hpat] at hlow
    revert hlow
    decide
  have hlen : ((c :: s).take 14).length = 14 := by
    have hmap := congrArg List.length hpat
    rw [List.length_map, List.length_map] at hmap
    exact hmap.symm
  have hfalse : HeadersNoNul false ((c :: s).drop 14) := by
    refine headersNoNul_append hlf ?_
    rw [List.take_append_drop]
    refine ⟨hc, ?_⟩
    rw [if_neg]
    · exact hs
    · rintro rfl
      exact hlf List.mem_cons_self
  rw [← untilNul_cons hc, ← List.take_append_drop 14 (c :: s), untilNul_append hnul, List.take_append_drop]
  rw [List.drop_left' hlen]
  exact headerValue_untilNul _ hfalse

/-- The field `authorization` is the last value, cut to its 511 characters. -/
theorem parseHeaders_authorization : ∀ (b : Bool) (s : List UInt8) (req : HttpRequest), HeadersNoNul b s →
    (parseHeaders b (untilNul s) req).1.authorization =
      (authValues b s).getLast?.elim req.authorization fun v => some (v.take 511)
  | b, [], req, _ => by cases b <;> rfl
  | true, c :: s, req, h => by
    unfold HeadersNoNul at h
    unfold authValues
    by_cases hblank : c = 13 ∧ s.head? = some 10
    · obtain ⟨rfl, hs⟩ := hblank
      obtain ⟨s', rfl⟩ := List.head?_eq_some_iff.1 hs
      rw [untilNul_cons (by decide), untilNul_cons (by decide), parseHeaders_blank, if_pos ⟨rfl, rfl⟩]
      rfl
    rw [if_neg hblank] at h ⊢
    by_cases hlf : c = 10
    · subst hlf
      rw [untilNul_cons (by decide), parseHeaders, if_neg fun h => absurd h.1 (by decide), if_pos rfl, if_pos rfl]
      rfl
    rw [if_neg hlf] at h ⊢
    have hblank' : ¬ (c = 13 ∧ (untilNul s).head? = some 10) := by
      rintro ⟨rfl, hs⟩
      obtain ⟨s', hs'⟩ := List.head?_eq_some_iff.1 hs
      refine hblank ⟨rfl, ?_⟩
      cases s with
      | nil => cases hs'
      | cons d s =>
        by_cases hd : d = 0
        · subst hd
          cases hs'
        · rw [untilNul_cons hd] at hs'
          cases hs'
          rfl
    rw [untilNul_cons h.1, parseHeaders, if_neg hblank', if_neg hlf, parseHeaders_authorization false s _ h.2,
      addHeader_authorization, ← untilNul_cons h.1]
    have hstarts : startsNoCase (untilNul (c :: s)) (ascii "authorization:") = startsNoCase (c :: s) (ascii "authorization:") :=
      isPrefixOf_untilNul _ (c :: s) (by decide)
    rw [hstarts]
    split
    · next hauth =>
      rw [untilNul_cons h.1, copyHeaderValue, authorization_untilNul h.1 h.2 hauth, List.getLast?_cons]
      cases (authValues false s).getLast? <;> rfl
    · rfl
  | false, c :: s, req, h => by
    obtain ⟨hc, hs⟩ := h
    unfold authValues
    rw [untilNul_cons hc, parseHeaders]
    split
    · next hlf =>
      rw [if_pos hlf] at hs
      exact parseHeaders_authorization true s req hs
    · next hlf =>
      rw [if_neg hlf] at hs
      exact parseHeaders_authorization false s req hs

/-! ## The fields of a well-formed request -/

/-- The value of a header of a well-formed request. -/
def valueText (h : List UInt8 × List UInt8) : List UInt8 := h.2.dropWhile (· = 32)

theorem headerValue_line {v : List UInt8} (hv : OneLine v) (s : List UInt8) :
    headerValue (v ++ 13 :: s) = v.dropWhile (· = 32) := by
  unfold headerValue
  have hstop : ∀ {l : List UInt8}, OneLine l → (l ++ 13 :: s).takeWhile (fun c => decide (c ≠ 13 ∧ c ≠ 10)) = l := by
    intro l hl
    refine takeWhile_append_stop (fun c hc => ?_) (by decide) s
    simpa using ⟨fun h : c = 13 => hl.2.2 (h ▸ hc), fun h : c = 10 => hl.2.1 (h ▸ hc)⟩
  induction v with
  | nil => rfl
  | cons c v ih =>
    by_cases hc : c = 32
    · rw [List.cons_append, List.dropWhile_cons, if_pos (by simpa using hc), List.dropWhile_cons, if_pos (by simpa using hc)]
      refine ih ⟨fun h => hv.1 ?_, fun h => hv.2.1 ?_, fun h => hv.2.2 ?_⟩ <;> exact List.mem_cons_of_mem c h
    · rw [List.cons_append, List.dropWhile_cons, if_neg (by simpa using hc), List.dropWhile_cons, if_neg (by simpa using hc)]
      exact hstop hv

/-- A field that each header sets from its own line is set by the headers one after the other. -/
theorem addHeaders_field {α : Type} (f : HttpRequest → α) (set : List UInt8 × List UInt8 → α → α)
    (hset : ∀ req h s, 58 ∉ h.1 → OneLine h.2 → f (req.addHeader (headerBytes h ++ 13 :: s)) = set h (f req))
    {hs : List (List UInt8 × List UInt8)} (hwf : ∀ h ∈ hs, OneLine h.1 ∧ 58 ∉ h.1 ∧ OneLine h.2) (s : List UInt8)
    (req : HttpRequest) : f (addHeaders s hs req) = hs.foldl (fun a h => set h a) (f req) := by
  induction hs generalizing req with
  | nil => rfl
  | cons h hs ih =>
    rw [List.forall_mem_cons] at hwf
    rw [addHeaders, ih hwf.2, hset _ _ _ hwf.1.2.1 hwf.1.2.2, List.foldl_cons]

/-- How a header sets a text field of its name with room for `n` characters. -/
def setText (name : String) (n : Nat) (h : List UInt8 × List UInt8) (a : Option (List UInt8)) : Option (List UInt8) :=
  if Named name h then some ((valueText h).take n) else a

theorem named_unique {h : List UInt8 × List UInt8} {a b : String} (ha : Named a h) (hb : Named b h) : ascii a = ascii b :=
  ha.symm.trans hb

variable {R : Request}

theorem parsed_authorization (hwf : R.WellFormed) (rest : List UInt8) :
    (R.parsed rest).authorization = R.headers.foldl (fun a h => setText "authorization" 511 h a) none := by
  refine addHeaders_field HttpRequest.authorization (setText "authorization" 511) (fun req h s hcolon hv => ?_) hwf.headers _ _
  rw [addHeader_eq hcolon, copyHeaderValue, copyHeaderValue, headerValue_line hv]
  unfold setText
  split
  · next hn =>
    rw [if_neg fun ha => absurd (named_unique hn ha) (by decide)]
  · split
    · next hn => rw [if_neg fun ha => absurd (named_unique hn ha) (by decide)]
    · split <;> rfl

theorem parsed_origin (hwf : R.WellFormed) (rest : List UInt8) :
    (R.parsed rest).origin = R.headers.foldl (fun a h => setText "origin" 255 h a) none := by
  refine addHeaders_field HttpRequest.origin (setText "origin" 255) (fun req h s hcolon hv => ?_) hwf.headers _ _
  rw [addHeader_eq hcolon, copyHeaderValue, copyHeaderValue, headerValue_line hv]
  unfold setText
  split
  · next hn =>
    rw [if_neg fun ha => absurd (named_unique hn ha) (by decide)]
  · split
    · rfl
    · split <;> rfl

theorem parsed_method (hwf : R.WellFormed) (rest : List UInt8) : (R.parsed rest).method = R.method := by
  have hfield := addHeaders_field HttpRequest.method (fun _ a => a) (fun req h s hcolon _ => by
    rw [addHeader_eq hcolon]
    split_ifs <;> rfl) hwf.headers (untilNul rest) ⟨R.method, R.target, [], -1, none, none⟩
  rwa [List.foldl_fixed] at hfield

theorem parsed_path (hwf : R.WellFormed) (rest : List UInt8) : (R.parsed rest).path = R.target := by
  have hfield := addHeaders_field HttpRequest.path (fun _ a => a) (fun req h s hcolon _ => by
    rw [addHeader_eq hcolon]
    split_ifs <;> rfl) hwf.headers (untilNul rest) ⟨R.method, R.target, [], -1, none, none⟩
  rwa [List.foldl_fixed] at hfield

/-- The one header of a name sets the field. -/
theorem foldl_setText {name : String} {n : Nat} {before after : List (List UInt8 × List UInt8)} {h : List UInt8 × List UInt8}
    (hn : Named name h) (hafter : ∀ h' ∈ after, ¬ Named name h') (a : Option (List UInt8)) :
    (before ++ h :: after).foldl (fun a h => setText name n h a) a = some ((valueText h).take n) := by
  rw [List.foldl_append, List.foldl_cons, setText, if_pos hn]
  generalize some ((valueText h).take n) = x
  induction after with
  | nil => rfl
  | cons h' after ih =>
    rw [List.forall_mem_cons] at hafter
    rw [List.foldl_cons, setText, if_neg hafter.1]
    exact ih hafter.2

/-! ## The gate -/

/-- The health check, which needs no key. -/
def IsHealth (req : HttpRequest) : Prop := req.method = ascii "GET" ∧ req.path = ascii "/health"

/-- Among the header lines is an `Authorization` header whose complete value is the key's. -/
def CarriesKey (K raw : List UInt8) : Prop :=
  ∃ m p q, parseRequestLine raw = some (m, p, q) ∧ bearer K ∈ authValues false q

/-- No NUL stands in the header lines. -/
def NoNulInHeaders (raw : List UInt8) : Prop := ∀ m p q, parseRequestLine raw = some (m, p, q) → HeadersNoNul false q

/-- All of the request's headers arrive, unless it is refused for its size before. -/
def HeadersArrive (R : Request) (rest : List UInt8) (sizes : List Nat) : Prop :=
  ∀ s, receive (R.bytes ++ rest) sizes = .got s → R.bytes.length ≤ s.buf.length

/-- A request with one `Authorization` header of a given value. -/
structure Bears (R : Request) (before : List (List UInt8 × List UInt8)) (h : List UInt8 × List UInt8)
    (after : List (List UInt8 × List UInt8)) (v : List UInt8) : Prop where
  wellFormed : R.WellFormed
  headers : R.headers = before ++ h :: after
  named : Named "authorization" h
  others : ∀ h' ∈ before ++ after, ¬ Named "authorization" h'
  value : valueText h = v

/-- What the gate is for, with the key `K`. -/
structure GateOk (K : List UInt8) : Prop where
  only : ∀ (cfg : ServerConfig) (env : Surroundings) (stream : List UInt8) (sizes : List Nat) (s : RecvState) (req : HttpRequest),
    cfg.apiKey = some K → receive stream sizes = .got s → NoNulInHeaders s.buf →
    (handleConnection cfg env stream sizes).dispatched = some req → ¬ IsHealth req → CarriesKey K s.buf
  right : ∀ (cfg : ServerConfig) (env : Surroundings) (R : Request) (before : List (List UInt8 × List UInt8))
    (h : List UInt8 × List UInt8) (after : List (List UInt8 × List UInt8)) (rest : List UInt8) (sizes : List Nat),
    cfg.apiKey = some K → Bears R before h after (bearer K) → HeadersArrive R rest sizes →
    (handleConnection cfg env (R.bytes ++ rest) sizes).response.status ≠ 401
  same : ∀ (cfg : ServerConfig) (env : Surroundings) (method target : List UInt8) (before : List (List UInt8 × List UInt8))
    (h h' : List UInt8 × List UInt8) (after : List (List UInt8 × List UInt8)) (v v' rest rest' : List UInt8)
    (sizes sizes' : List Nat) (s s' : RecvState),
    cfg.apiKey = some K → Bears ⟨method, target, before ++ h :: after⟩ before h after v →
    Bears ⟨method, target, before ++ h' :: after⟩ before h' after v' → v ≠ bearer K → v' ≠ bearer K →
    receive ((Request.mk method target (before ++ h :: after)).bytes ++ rest) sizes = .got s →
    receive ((Request.mk method target (before ++ h' :: after)).bytes ++ rest') sizes' = .got s' →
    HeadersArrive ⟨method, target, before ++ h :: after⟩ rest sizes →
    HeadersArrive ⟨method, target, before ++ h' :: after⟩ rest' sizes' →
    (handleConnection cfg env ((Request.mk method target (before ++ h :: after)).bytes ++ rest) sizes).response =
      (handleConnection cfg env ((Request.mk method target (before ++ h' :: after)).bytes ++ rest') sizes').response

/-! ### Only with the key -/

theorem length_bearer (K : List UInt8) : (bearer K).length = K.length + 7 := by
  unfold bearer
  rw [List.length_append]
  exact Nat.add_comm 7 K.length

/-- A value that is the key's after the cut to the field is the key's, as a short key leaves room in the
field. -/
theorem bearer_of_take {K v : List UInt8} (hK : K.length ≤ 503) (h : v.take 511 = bearer K) : v = bearer K := by
  have hlen := congrArg List.length h
  rw [List.length_take, length_bearer] at hlen
  rwa [List.take_of_length_le (by omega)] at h

theorem untilNul_split (raw : List UInt8) : ∃ z, raw = untilNul raw ++ z ∧ untilNul z = [] := by
  refine ⟨raw.dropWhile (· ≠ 0), (List.takeWhile_append_dropWhile ..).symm, ?_⟩
  unfold untilNul
  induction raw with
  | nil => rfl
  | cons c raw ih =>
    rw [List.dropWhile_cons]
    split
    · exact ih
    · next hc =>
      rw [List.takeWhile_cons, if_neg hc]

theorem httpParse_authorization {raw : List UInt8} {req : HttpRequest} (h : httpParse raw = some req)
    (hnul : NoNulInHeaders raw) :
    ∃ m p q, parseRequestLine raw = some (m, p, q) ∧
      req.authorization = (authValues false q).getLast?.elim none fun v => some (v.take 511) := by
  unfold httpParse at h
  obtain ⟨⟨m, p, q⟩, hline, rfl⟩ := Option.map_eq_some_iff.1 h
  obtain ⟨z, hz, hznil⟩ := untilNul_split raw
  have hraw : parseRequestLine raw = some (m, p, q ++ z) := by
    rw [hz]
    exact parseRequestLine_append hline z
  have hq : 0 ∉ q := by
    obtain ⟨q', rfl, heq, -⟩ := parseRequestLine_eq_some hline
    intro hmem
    refine untilNul_noNul raw ?_
    rw [heq]
    exact List.mem_append_right _ (List.mem_cons_of_mem _ (List.mem_append_right _ hmem))
  have huntil : untilNul (q ++ z) = q := by rw [untilNul_append hq, hznil, List.append_nil]
  refine ⟨m, p, q ++ z, hraw, ?_⟩
  have hfield := parseHeaders_authorization false (q ++ z) ⟨m, p, [], -1, none, none⟩ (hnul m p _ hraw)
  rw [huntil] at hfield
  exact hfield

theorem gate_only {K : List UInt8} (hK : K.length ≤ 503) {cfg : ServerConfig} {raw : List UInt8} {req : HttpRequest}
    (hkey : cfg.apiKey = some K) (hnul : NoNulInHeaders raw) (h : Dispatches cfg raw req) (hhealth : ¬ IsHealth req) :
    CarriesKey K raw := by
  obtain ⟨hparse, -, hgate⟩ := h
  have hauth := hgate.resolve_left hhealth
  rw [hkey, authCheckRequest_iff] at hauth
  obtain ⟨m, p, q, hline, hfield⟩ := httpParse_authorization hparse hnul
  rw [hauth] at hfield
  refine ⟨m, p, q, hline, ?_⟩
  cases hlast : (authValues false q).getLast? with
  | none =>
    rw [hlast] at hfield
    cases hfield
  | some v =>
    rw [hlast] at hfield
    rw [← bearer_of_take hK (Option.some.inj hfield).symm]
    exact List.mem_of_getLast? hlast

/-! ### Requests that bear a value -/

variable {before after : List (List UInt8 × List UInt8)} {h : List UInt8 × List UInt8} {v : List UInt8}

theorem Bears.authorization (hb : Bears R before h after v) (rest : List UInt8) :
    (R.parsed rest).authorization = some (v.take 511) := by
  rw [parsed_authorization hb.wellFormed, hb.headers,
    foldl_setText hb.named fun h' hh' => hb.others h' (List.mem_append_right _ hh'), hb.value]

/-- The buffer holds the request, with some bytes behind it. -/
theorem received_request {rest : List UInt8} {sizes : List Nat} {s : RecvState} (harrive : HeadersArrive R rest sizes)
    (hs : receive (R.bytes ++ rest) sizes = .got s) : ∃ more, s.buf = R.bytes ++ more := by
  have hpre : s.buf <+: R.bytes ++ rest := recvLoop_start (List.nil_prefix ..) hs
  obtain ⟨more, hmore⟩ := List.prefix_of_prefix_length_le (List.prefix_append R.bytes rest) hpre (harrive s hs)
  exact ⟨more, hmore.symm⟩

theorem handleChatCompletions_ne_401 (env : Surroundings) (body : List UInt8) : handleChatCompletions env body ≠ 401 := by
  unfold handleChatCompletions
  repeat' split
  all_goals decide

theorem handleCancel_ne_401 (env : Surroundings) (body : List UInt8) : handleCancel env body ≠ 401 := by
  unfold handleCancel
  repeat' split
  all_goals decide

theorem staticAssetsServe_ne_401 (cfg : ServerConfig) (env : Surroundings) (path : List UInt8) :
    (staticAssetsServe cfg env path).1 ≠ 401 := by
  unfold staticAssetsServe
  split
  · unfold serveFromDisk
    split
    · decide
    · dsimp only
      split <;> decide
  · unfold serveFromBundle
    split <;> decide

/-- No handler answers 401. -/
theorem dispatch_ne_401 (cfg : ServerConfig) (env : Surroundings) (req : HttpRequest) : (dispatch cfg env req).1 ≠ 401 := by
  unfold dispatch
  split
  · decide
  · decide
  · decide
  · decide
  · split_ifs <;> decide
  · exact handleChatCompletions_ne_401 env req.body
  · exact handleCancel_ne_401 env req.body
  · exact staticAssetsServe_ne_401 cfg env req.path
  · decide

theorem gate_right {K : List UInt8} (hK : K.length ≤ 503) {cfg : ServerConfig} (env : Surroundings)
    (hkey : cfg.apiKey = some K) (hb : Bears R before h after (bearer K)) (more : List UInt8) :
    (handleRequest cfg env (R.bytes ++ more)).response.status ≠ 401 := by
  have hauth : authCheckRequest cfg.apiKey (R.parsed more).authorization = true := by
    rw [hkey, authCheckRequest_iff, hb.authorization, List.take_of_length_le (by rw [length_bearer]; omega)]
  unfold handleRequest
  rw [httpParse_request_eq hb.wellFormed]
  split
  · decide
  · next req hreq =>
    split at hreq
    · cases hreq
      dsimp only
      split
      · exact (by decide : (204 : Nat) ≠ 401)
      · rw [if_neg fun hc => hc.2 hauth]
        exact dispatch_ne_401 cfg env _
    · cases hreq

/-- The response to a request with a wrong key. -/
def refusedResponse (cfg : ServerConfig) (method target : List UInt8) (origin : Option (List UInt8)) : Response :=
  let extra := if cfg.corsEnabled then corsFormatHeaders cfg origin 512 else []
  if method.length ≤ 15 ∧ target.length ≤ 255 then
    if method = ascii "OPTIONS" then ⟨204, extra⟩
    else if method = ascii "GET" ∧ target = ascii "/health" then ⟨200, extra⟩
    else ⟨401, extra⟩
  else ⟨400, []⟩

theorem refused_response {K : List UInt8} {cfg : ServerConfig} (env : Surroundings)
    (hkey : cfg.apiKey = some K) (hb : Bears R before h after v) (hwrong : v.take 511 ≠ bearer K) (more : List UInt8) :
    (handleRequest cfg env (R.bytes ++ more)).response =
      refusedResponse cfg R.method R.target (R.headers.foldl (fun a h => setText "origin" 255 h a) none) := by
  have hauth : authCheckRequest cfg.apiKey (R.parsed more).authorization ≠ true := by
    rw [hkey, Ne, authCheckRequest_iff, hb.authorization]
    exact fun heq => hwrong (Option.some.inj heq)
  unfold handleRequest refusedResponse
  rw [httpParse_request_eq hb.wellFormed]
  by_cases hfit : R.method.length ≤ 15 ∧ R.target.length ≤ 255
  · rw [if_pos hfit, if_pos hfit]
    dsimp only
    rw [parsed_origin hb.wellFormed, parsed_method hb.wellFormed, parsed_path hb.wellFormed]
    split
    · rfl
    · by_cases hhealth : R.method = ascii "GET" ∧ R.target = ascii "/health"
      · rw [if_neg fun hc => hc.1 hhealth, if_pos hhealth]
        have hroute : route cfg (R.parsed more).method (R.parsed more).path = .health := by
          rw [parsed_method hb.wellFormed, parsed_path hb.wellFormed, hhealth.1, hhealth.2]
          rfl
        unfold dispatch
        rw [hroute]
      · rw [if_pos ⟨hhealth, hauth⟩, if_neg hhealth]
  · rw [if_neg hfit, if_neg hfit]

theorem gateOk_of_short {K : List UInt8} (hK : K.length ≤ 503) : GateOk K where
  only cfg env stream sizes s req hkey hs hnul hdispatched hhealth := by
    rw [handleConnection, hs] at hdispatched
    exact gate_only hK hkey hnul ((handleRequest_dispatched cfg env s.buf req).1 hdispatched) hhealth
  right cfg env R before h after rest sizes hkey hb harrive := by
    unfold handleConnection
    cases hs : receive (R.bytes ++ rest) sizes with
    | tooLarge => exact (by decide : (413 : Nat) ≠ 401)
    | got s =>
      obtain ⟨more, hmore⟩ := received_request harrive hs
      dsimp only
      rw [hmore]
      exact gate_right hK env hkey hb more
  same cfg env method target before h h' after v v' rest rest' sizes sizes' s s' hkey hb hb' hv hv' hs hs' harrive harrive' := by
    obtain ⟨more, hmore⟩ := received_request harrive hs
    obtain ⟨more', hmore'⟩ := received_request harrive' hs'
    unfold handleConnection
    rw [hs, hs']
    dsimp only
    rw [hmore, hmore', refused_response env hkey hb (mt (bearer_of_take hK) hv),
      refused_response env hkey hb' (mt (bearer_of_take hK) hv')]
    -- the origin is set by the other headers
    have horigin : ∀ {h : List UInt8 × List UInt8}, Named "authorization" h → ∀ a,
        (before ++ h :: after).foldl (fun a h => setText "origin" 255 h a) a =
          (before ++ after).foldl (fun a h => setText "origin" 255 h a) a := by
      intro h hn a
      rw [List.foldl_append, List.foldl_cons, List.foldl_append, setText,
        if_neg fun ho => absurd (named_unique hn ho) (by decide)]
    rw [horigin hb.named, horigin hb'.named]

/-! ### Longer keys -/

theorem authValues_skip : ∀ {l : List UInt8}, 10 ∉ l → ∀ s : List UInt8, authValues false (l ++ 10 :: s) = authValues true s
  | [], _, s => by rw [List.nil_append, authValues, if_pos rfl]
  | c :: l, hl, s => by
    rw [List.mem_cons, not_or] at hl
    rw [List.cons_append, authValues, if_neg fun h => hl.1 h.symm]
    exact authValues_skip hl.2 s

theorem headersNoNul_of_noNul : ∀ (b : Bool) {s : List UInt8}, 0 ∉ s → HeadersNoNul b s
  | b, [], _ => by cases b <;> trivial
  | true, c :: s, h => by
    rw [List.mem_cons, not_or] at h
    unfold HeadersNoNul
    split
    · trivial
    · split
      · trivial
      · exact ⟨fun hc => h.1 hc.symm, headersNoNul_of_noNul false h.2⟩
  | false, c :: s, h => by
    rw [List.mem_cons, not_or] at h
    refine ⟨fun hc => h.1 hc.symm, ?_⟩
    split
    · exact headersNoNul_of_noNul true h.2
    · exact headersNoNul_of_noNul false h.2

/-- A request for the list of models with the key and some more bytes as its header's value. -/
def keyHeader (K extra : List UInt8) : List UInt8 × List UInt8 := (ascii "Authorization", 32 :: (bearer K ++ extra))

def keyRequest (K extra : List UInt8) : Request := ⟨ascii "GET", ascii "/v1/models", [keyHeader K extra]⟩

variable {K extra : List UInt8}

theorem keyRequest_bears (hK : OneLine K) (hextra : OneLine extra) :
    Bears (keyRequest K extra) [] (keyHeader K extra) [] (bearer K ++ extra) where
  wellFormed := by
    have hbearer : OneLine (ascii "Bearer ") := by unfold OneLine; decide
    have hmethod : OneLine (ascii "GET") ∧ 32 ∉ ascii "GET" := by unfold OneLine; decide
    have htarget : OneLine (ascii "/v1/models") ∧ 32 ∉ ascii "/v1/models" := by unfold OneLine; decide
    have hname : OneLine (ascii "Authorization") ∧ 58 ∉ ascii "Authorization" := by unfold OneLine; decide
    refine ⟨hmethod, htarget, fun h hh => ?_⟩
    rw [List.mem_singleton.1 hh]
    refine ⟨hname.1, hname.2, ?_⟩
    unfold keyHeader bearer OneLine
    refine ⟨?_, ?_, ?_⟩
    · simp [hbearer.1, hK.1, hextra.1]
    · simp [hbearer.2.1, hK.2.1, hextra.2.1]
    · simp [hbearer.2.2, hK.2.2, hextra.2.2]
  headers := rfl
  named := (by decide : (ascii "Authorization").map toLower = ascii "authorization")
  others := nofun
  value := rfl

theorem length_keyRequest (K extra : List UInt8) : (keyRequest K extra).bytes.length = K.length + extra.length + 51 := by
  have hline : (keyRequest K extra).line.length = 23 := rfl
  have hsection : (headerSection (keyRequest K extra).headers).length = K.length + extra.length + 26 := by
    unfold keyRequest headerSection headerBytes keyHeader
    simp only [List.flatMap_cons, List.flatMap_nil, List.length_append, List.length_cons, List.length_nil, length_bearer]
    change 13 + _ + _ + _ + _ = _
    omega
  rw [length_bytes, hline, hsection]
  omega

theorem keyRequest_received (hwf : (keyRequest K extra).WellFormed) (hsize : K.length + extra.length + 1075 ≤ httpMaxBodyBytes) :
    ∃ sizes s, receive ((keyRequest K extra).bytes ++ []) sizes = .got s ∧ s.buf = (keyRequest K extra).bytes := by
  have hlen := length_keyRequest K extra
  obtain ⟨s, hs, hbuf⟩ := recvLoop_whole hwf (by omega) (keyRequest K extra).bytes.length capOk_start (by omega) (by omega)
  refine ⟨List.replicate (keyRequest K extra).bytes.length 1000, s, ?_, hbuf⟩
  rw [List.append_nil]
  exact hs

theorem keyRequest_authValues (hK : OneLine K) (hextra : OneLine extra) {m p q : List UInt8}
    (h : parseRequestLine (keyRequest K extra).bytes = some (m, p, q)) : authValues false q = [bearer K ++ extra] := by
  have hwf := (keyRequest_bears hK hextra).wellFormed
  have hvalue := hwf.headers (keyHeader K extra) List.mem_cons_self
  have hline : parseRequestLine (keyRequest K extra).bytes =
      some (ascii "GET", ascii "/v1/models", ascii " HTTP/1.1\r" ++ 10 :: headerSection [keyHeader K extra]) :=
    @parseRequestLine_of_line (ascii "GET") (ascii "/v1/models") (by decide +kernel) (by decide +kernel) (by decide +kernel)
      (by decide +kernel)
      (ascii "HTTP/1.1\r" ++ 10 :: headerSection [keyHeader K extra])
  cases hline.symm.trans h
  have hstarts : startsNoCase (headerBytes (keyHeader K extra) ++ [13, 10, 13, 10]) (ascii "authorization:") = true :=
    (startsNoCase_named hvalue.2.1 "authorization" [13, 10, 13, 10] (by decide) (by decide)).2
      (keyRequest_bears hK hextra).named
  have hdrop : (headerBytes (keyHeader K extra) ++ [13, 10, 13, 10]).drop 14 = (keyHeader K extra).2 ++ [13, 10, 13, 10] :=
    drop_name (keyRequest_bears hK hextra).named _
  have hsection : headerSection [keyHeader K extra] = headerBytes (keyHeader K extra) ++ [13, 10, 13, 10] := by
    unfold headerSection
    simp
  have hcons : headerBytes (keyHeader K extra) ++ [13, 10, 13, 10] =
      65 :: ((ascii "uthorization" ++ 58 :: (keyHeader K extra).2 ++ [13]) ++ 10 :: [13, 10]) := by
    unfold headerBytes keyHeader
    simp [ascii]
  have hskip : 10 ∉ ascii "uthorization" ++ 58 :: (keyHeader K extra).2 ++ [13] := by
    have hname : 10 ∉ ascii "uthorization" := by decide
    simp [hname, hvalue.2.2.2.1]
  have hblank : authValues true [13, 10] = [] := rfl
  rw [authValues_skip (by decide), hsection]
  rw [hcons] at hstarts hdrop ⊢
  rw [authValues, if_neg fun h => absurd h.1 (by decide), if_neg (by decide), if_pos hstarts, hdrop,
    headerValue_line hvalue.2.2, authValues_skip hskip, hblank]
  rfl

/-- Where the field is too short for the header's value. -/
theorem not_gateOk_of_long (hK : OneLine K) (hlong : 503 < K.length) (hsize : K.length + 3000 ≤ httpMaxBodyBytes) :
    ¬ GateOk K := by
  intro hgate
  have hx : OneLine (ascii "x") := by unfold OneLine; decide
  have hnil : OneLine [] := by unfold OneLine; decide
  let cfg : ServerConfig := { plainConfig with apiKey := some K }
  rcases Nat.lt_or_ge 504 K.length with hlt | hge
  · -- the key itself does not fit
    have hb := keyRequest_bears hK hnil
    obtain ⟨sizes, s, hs, hbuf⟩ := keyRequest_received hb.wellFormed (by rw [List.length_nil]; omega)
    rw [List.append_nil] at hb
    have harrive : HeadersArrive (keyRequest K []) [] sizes := by
      intro s' hs'
      cases hs.symm.trans hs'
      rw [hbuf]
    refine hgate.right cfg quietSurroundings _ _ _ _ [] sizes rfl hb harrive ?_
    have hwrong : (bearer K).take 511 ≠ bearer K := by
      intro heq
      have hlen := congrArg List.length heq
      rw [List.length_take, length_bearer] at hlen
      omega
    have hresponse := @refused_response _ _ _ _ _ K cfg quietSurroundings rfl hb hwrong []
    rw [handleConnection, hs]
    dsimp only
    rw [hbuf, ← List.append_nil (keyRequest K []).bytes, hresponse]
    rfl
  · -- one character more is cut off
    have hb := keyRequest_bears hK hx
    have hwf := hb.wellFormed
    obtain ⟨sizes, s, hs, hbuf⟩ := keyRequest_received hwf (by change K.length + 1 + 1075 ≤ _; omega)
    have hparse : httpParse s.buf = some ((keyRequest K (ascii "x")).parsed []) := by
      rw [hbuf, ← List.append_nil (keyRequest K (ascii "x")).bytes, httpParse_request_eq hwf]
      rfl
    have hcut : (bearer K ++ ascii "x").take 511 = bearer K := by
      rw [List.take_append_of_le_length (by rw [length_bearer]; omega), List.take_of_length_le (by rw [length_bearer]; omega)]
    have hdisp : Dispatches cfg s.buf ((keyRequest K (ascii "x")).parsed []) := by
      refine ⟨hparse, ?_, .inr ?_⟩
      · rw [parsed_method hwf]
        exact (by decide : ascii "GET" ≠ ascii "OPTIONS")
      · exact (authCheckRequest_iff K _).2 (by rw [hb.authorization, hcut])
    have hnul : NoNulInHeaders s.buf := by
      intro m p q hq
      rw [hbuf] at hq
      obtain ⟨q', rfl, heq, -⟩ := parseRequestLine_eq_some hq
      refine headersNoNul_of_noNul false fun hmem => noNul_bytes hwf ?_
      rw [heq]
      exact List.mem_append_right _ (List.mem_cons_of_mem _ (List.mem_append_right _ hmem))
    have hran : (handleConnection cfg quietSurroundings ((keyRequest K (ascii "x")).bytes ++ []) sizes).dispatched =
        some ((keyRequest K (ascii "x")).parsed []) := by
      rw [handleConnection, hs]
      exact (handleRequest_dispatched cfg quietSurroundings s.buf _).2 hdisp
    have hhealth : ¬ IsHealth ((keyRequest K (ascii "x")).parsed []) := by
      rintro ⟨-, hpath⟩
      rw [parsed_path hwf] at hpath
      exact absurd hpath (by decide : ascii "/v1/models" ≠ ascii "/health")
    obtain ⟨m, p, q, hq, hmem⟩ := hgate.only cfg quietSurroundings _ sizes s _ rfl hs hnul hran hhealth
    rw [hbuf] at hq
    rw [keyRequest_authValues hK hx hq, List.mem_singleton] at hmem
    have hlen := congrArg List.length hmem
    rw [List.length_append] at hlen
    change (bearer K).length = (bearer K).length + 1 at hlen
    omega

/-- The gate is right for a key of at most 503 characters, and for no longer one that a request can carry. -/
theorem auth_gate (hK : ApiKey K) :
    (K.length ≤ 503 → GateOk K) ∧ (503 < K.length → K.length + 3000 ≤ httpMaxBodyBytes → ¬ GateOk K) :=
  ⟨gateOk_of_short, not_gateOk_of_long hK.oneLine⟩

theorem auth_gate_secret : GateOk (ascii "secret") :=
  (@auth_gate (ascii "secret") ⟨by decide, by unfold OneLine; decide, by decide⟩).1 (by decide)

/-- With a key of 504 characters a request with one more behind them is let in. -/
theorem cut_value_let_in : ¬ ∀ K, ApiKey K → GateOk K := by
  intro h
  have hline : OneLine (List.replicate 504 107) :=
    ⟨fun hc => absurd (List.eq_of_mem_replicate hc) (by decide), fun hc => absurd (List.eq_of_mem_replicate hc) (by decide),
      fun hc => absurd (List.eq_of_mem_replicate hc) (by decide)⟩
  have hlen : (List.replicate 504 (107 : UInt8)).length = 504 := List.length_replicate
  refine not_gateOk_of_long hline (by omega) (by rw [httpMaxBodyBytes_eq]; omega) (h _ ⟨?_, hline, ?_⟩)
  · exact List.cons_ne_nil _ _
  · exact (by decide : some (107 : UInt8) ≠ some 32)

end BitForge.Api
