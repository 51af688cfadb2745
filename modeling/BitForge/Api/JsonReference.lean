/-
Valid requests: the parser agrees with the documented reading of a request, and where it does not.
-/
import BitForge.Api.JsonDecode

namespace BitForge.Api

open BitForge.Lib

/-! ## Readings -/

section

variable {F : Type} {R R' : Reading F}

theorem Members.fold_mono {α : Type} {step step' : Str → Value → α → Option α}
    (h : ∀ name v a a', step name v a = some a' → step' name v a = some a') : ∀ (ms : Members) {a a' : α},
      ms.fold step a = some a' → ms.fold step' a = some a'
  | .empty _, _, _, hfold => hfold
  | .last _ _ _, _, _, hfold => h _ _ _ _ hfold
  | .cons _ _ _ ms, _, _, hfold => by
    obtain ⟨b, hb, hms⟩ := Option.bind_eq_some_iff.1 hfold
    exact Option.bind_eq_some_iff.2 ⟨b, h _ _ _ _ hb, ms.fold_mono h hms⟩

theorem Elements.fold_mono {α : Type} {step step' : Value → α → Option α}
    (h : ∀ v a a', step v a = some a' → step' v a = some a') : ∀ (es : Elements) {a a' : α},
      es.fold step a = some a' → es.fold step' a = some a'
  | .empty _, _, _, hfold => hfold
  | .last _ _ _, _, _, hfold => h _ _ _ hfold
  | .cons _ _ _ es, _, _, hfold => by
    obtain ⟨b, hb, hes⟩ := Option.bind_eq_some_iff.1 hfold
    exact Option.bind_eq_some_iff.2 ⟨b, h _ _ _ hb, es.fold_mono h hes⟩

variable (hstr : ∀ s d, R.str s = some d → R'.str s = some d)

include hstr

/-- Both sides look at a decoded name. -/
theorem name_mono {α : Type} {name : Str} {f g : List UInt8 → Option α} {a : α}
    (h : (R.str name).bind f = some a) (hfg : ∀ n, f n = some a → g n = some a) : (R'.str name).bind g = some a := by
  obtain ⟨n, hn, hf⟩ := Option.bind_eq_some_iff.1 h
  exact Option.bind_eq_some_iff.2 ⟨n, hstr name n hn, hfg n hf⟩

theorem imageUrlMember_mono {name : Str} {v : Value} {msg msg' : ChatMessage}
    (h : imageUrlMember R name v msg = some msg') : imageUrlMember R' name v msg = some msg' := by
  refine name_mono hstr h fun n hn => ?_
  by_cases hurl : n = ascii "url"
  · rw [if_pos hurl] at hn ⊢
    cases v with
    | str s => exact name_mono hstr hn fun _ => id
    | atom a => exact (Option.some_ne_none _ hn.symm).elim
    | arr es => exact (Option.some_ne_none _ hn.symm).elim
    | obj ms => exact (Option.some_ne_none _ hn.symm).elim
  · rwa [if_neg hurl] at hn ⊢

theorem partMember_mono {name : Str} {v : Value} {msg msg' : ChatMessage} (h : partMember R name v msg = some msg') :
    partMember R' name v msg = some msg' := by
  refine name_mono hstr h fun n hn => ?_
  by_cases htext : n = ascii "text"
  · rw [if_pos htext] at hn ⊢
    cases v with
    | str s => exact name_mono hstr hn fun _ => id
    | atom a => exact (Option.some_ne_none _ hn.symm).elim
    | arr es => exact (Option.some_ne_none _ hn.symm).elim
    | obj ms => exact (Option.some_ne_none _ hn.symm).elim
  rw [if_neg htext] at hn ⊢
  by_cases himage : n = ascii "image_url"
  · rw [if_pos himage] at hn ⊢
    cases v with
    | obj ms => exact ms.fold_mono (fun _ _ _ _ => imageUrlMember_mono hstr) hn
    | atom a => exact (Option.some_ne_none _ hn.symm).elim
    | arr es => exact (Option.some_ne_none _ hn.symm).elim
    | str s => exact (Option.some_ne_none _ hn.symm).elim
  · rwa [if_neg himage] at hn ⊢

theorem contentPart_mono {v : Value} {msg msg' : ChatMessage} (h : contentPart R v msg = some msg') :
    contentPart R' v msg = some msg' := by
  cases v with
  | obj ms => exact ms.fold_mono (fun _ _ _ _ => partMember_mono hstr) h
  | atom a => exact (Option.some_ne_none _ h.symm).elim
  | arr es => exact (Option.some_ne_none _ h.symm).elim
  | str s => exact (Option.some_ne_none _ h.symm).elim

theorem messageMember_mono {name : Str} {v : Value} {msg msg' : ChatMessage}
    (h : messageMember R name v msg = some msg') : messageMember R' name v msg = some msg' := by
  refine name_mono hstr h fun n hn => ?_
  by_cases hrole : n = ascii "role"
  · rw [if_pos hrole] at hn ⊢
    cases v with
    | str s => exact name_mono hstr hn fun _ => id
    | atom a => exact (Option.some_ne_none _ hn.symm).elim
    | arr es => exact (Option.some_ne_none _ hn.symm).elim
    | obj ms => exact (Option.some_ne_none _ hn.symm).elim
  rw [if_neg hrole] at hn ⊢
  by_cases hcontent : n = ascii "content"
  · rw [if_pos hcontent] at hn ⊢
    cases v with
    | str s => exact name_mono hstr hn fun _ => id
    | arr es => exact es.fold_mono (fun _ _ _ => contentPart_mono hstr) hn
    | atom a => exact (Option.some_ne_none _ hn.symm).elim
    | obj ms => exact (Option.some_ne_none _ hn.symm).elim
  · rwa [if_neg hcontent] at hn ⊢

theorem message_mono {v : Value} {messages messages' : List ChatMessage} (h : message R v messages = some messages') :
    message R' v messages = some messages' := by
  cases v with
  | obj ms =>
    obtain ⟨msg, hmsg, heq⟩ := Option.bind_eq_some_iff.1 h
    exact Option.bind_eq_some_iff.2 ⟨msg, ms.fold_mono (fun _ _ _ _ => messageMember_mono hstr) hmsg, heq⟩
  | atom a => exact (Option.some_ne_none _ h.symm).elim
  | arr es => exact (Option.some_ne_none _ h.symm).elim
  | str s => exact (Option.some_ne_none _ h.symm).elim

end

/-! ## Strings -/

theorem rfcEscapes_unescape {c d : UInt8} (h : rfcEscapes.lookup c = some d) : unescape c = d := by
  have hall : ∀ c : UInt8, (rfcEscapes.lookup c).all fun d => unescape c == d := uint8_forall (by decide +kernel)
  have hc := hall c
  rw [h, Option.all_some] at hc
  exact beq_iff_eq.1 hc

/-- A string without `\\u` escapes is decoded as RFC 8259 says. -/
theorem mapM_value : ∀ {s : Str} {d : List UInt8}, s.mapM StrItem.value = some d → s.decoded = d
  | [], d, h => by
    rw [List.mapM_nil] at h
    exact Option.some.inj h
  | item :: s, d, h => by
    rw [List.mapM_cons] at h
    obtain ⟨c, hc, h⟩ := Option.bind_eq_some_iff.1 h
    obtain ⟨t, ht, h⟩ := Option.bind_eq_some_iff.1 h
    obtain rfl := Option.some.inj h
    have hitem : item.decoded = c := by
      cases item with
      | plain b hb => exact Option.some.inj hc
      | escape b hb => exact rfcEscapes_unescape hc
      | unicode c₁ c₂ c₃ c₄ hb => exact (Option.some_ne_none _ hc.symm).elim
    rw [← mapM_value ht, ← hitem]
    rfl

/-! ## Valid requests -/

def Members.entries : Members → List (Str × Value)
  | .empty _ => []
  | .last k v _ => [(k.name, v)]
  | .cons k v _ ms => (k.name, v) :: ms.entries

/-- No name occurs twice. -/
def Members.Distinct (ms : Members) : Prop := (ms.entries.map fun e => Str.decoded e.1).Nodup

instance : DecidablePred Members.Distinct :=
  fun ms => inferInstanceAs (Decidable (ms.entries.map fun e => Str.decoded e.1).Nodup)

/-- What the parser has room for: a number must be told by its first 63 characters, and behind the first
`CHAT_MAX_MESSAGES` messages no bracket may stand but the one that closes the array. -/
structure Fits {F : Type} (atof : Atof F) (ms : Members) : Prop where
  float : ∀ name a, (name, Value.atom a) ∈ ms.entries → name.decoded ∈ [ascii "temperature", ascii "top_p"] →
    atof.float (a.1.take 63) = atof.float a.1
  int : ∀ name a, (name, Value.atom a) ∈ ms.entries → name.decoded = ascii "max_tokens" →
    atof.int (a.1.take 63) = atof.int a.1
  messages : ∀ name es, (name, Value.arr es) ∈ ms.entries → name.decoded = ascii "messages" →
    es.length ≤ chatMaxMessages ∨ closeBracket ∉ es.textFrom chatMaxMessages

section

variable {F : Type} {atof : Atof F}

theorem documented_str (s : Str) (d : List UInt8) (h : (documented atof).str s = some d) : (parsed atof).str s = some d :=
  congrArg some (mapM_value h)

/-- Where it has room, the parser reads a member as it is documented. -/
theorem requestMember_parsed {name : Str} {v : Value} {req req' : ChatRequest F}
    (h : requestMember (documented atof) name v req = some req')
    (hfloat : ∀ a, v = .atom a → name.decoded ∈ [ascii "temperature", ascii "top_p"] →
      atof.float (a.1.take 63) = atof.float a.1)
    (hint : ∀ a, v = .atom a → name.decoded = ascii "max_tokens" → atof.int (a.1.take 63) = atof.int a.1)
    (hmessages : ∀ es, v = .arr es → name.decoded = ascii "messages" → req.messages = [] ∧
      (es.length ≤ chatMaxMessages ∨ closeBracket ∉ es.textFrom chatMaxMessages)) :
    requestMember (parsed atof) name v req = some req' := by
  obtain ⟨n, hname, h⟩ := Option.bind_eq_some_iff.1 h
  obtain rfl : name.decoded = n := mapM_value hname
  change (if name.decoded = ascii "model" then _ else _) = some req'
  by_cases hmodel : name.decoded = ascii "model"
  · rw [if_pos hmodel] at h ⊢
    cases v with
    | str s => exact name_mono documented_str h fun _ => id
    | atom a => exact (Option.some_ne_none _ h.symm).elim
    | arr es => exact (Option.some_ne_none _ h.symm).elim
    | obj ms => exact (Option.some_ne_none _ h.symm).elim
  rw [if_neg hmodel] at h ⊢
  by_cases hmsgs : name.decoded = ascii "messages"
  · rw [if_pos hmsgs] at h ⊢
    cases v with
    | arr es =>
      obtain ⟨all, hall, h⟩ := Option.bind_eq_some_iff.1 h
      obtain ⟨hempty, hskip⟩ := hmessages es rfl hmsgs
      have hfold := es.fold_mono (fun _ _ _ => message_mono documented_str) hall
      have hany : (documented atof).surplus (es.textFrom (chatMaxMessages - req.messages.length)) = true := rfl
      rw [if_pos (Or.inr hany)] at h
      refine Option.bind_eq_some_iff.2 ⟨all, hfold, ?_⟩
      rw [if_pos]
      · exact h
      · obtain ⟨more, rfl, hlen⟩ := messages_extend es hfold
        rw [hempty, List.nil_append, hlen, List.length_nil, Nat.sub_zero, parsed, Bool.not_eq_true', ← Bool.not_eq_true,
          List.contains_iff_mem]
        exact hskip
    | atom a => exact (Option.some_ne_none _ h.symm).elim
    | str s => exact (Option.some_ne_none _ h.symm).elim
    | obj ms => exact (Option.some_ne_none _ h.symm).elim
  rw [if_neg hmsgs] at h ⊢
  have hnumber : ∀ {f g : Atom → ChatRequest F}, (∀ a, v = .atom a → f a = g a) →
      ((numberAtom v).bind fun a => some (f a)) = some req' → ((numberAtom v).bind fun a => some (g a)) = some req' := by
    intro f g hfg hbind
    obtain ⟨a, ha, hreq⟩ := Option.bind_eq_some_iff.1 hbind
    refine Option.bind_eq_some_iff.2 ⟨a, ha, ?_⟩
    cases v with
    | atom b =>
      rw [numberAtom, Option.ite_none_right_eq_some, Option.some.injEq] at ha
      rw [← hfg a (by rw [ha.2]), hreq]
    | arr es => exact (Option.some_ne_none _ ha.symm).elim
    | str s => exact (Option.some_ne_none _ ha.symm).elim
    | obj ms => exact (Option.some_ne_none _ ha.symm).elim
  by_cases htemperature : name.decoded = ascii "temperature"
  · rw [if_pos htemperature] at h ⊢
    refine hnumber (fun a ha => ?_) h
    have heq := hfloat a ha (by rw [htemperature]; exact List.mem_cons_self)
    exact congrArg (fun x => { req with temperature := x }) heq.symm
  rw [if_neg htemperature] at h ⊢
  by_cases htopP : name.decoded = ascii "top_p"
  · rw [if_pos htopP] at h ⊢
    refine hnumber (fun a ha => ?_) h
    have heq := hfloat a ha (by rw [htopP]; exact List.mem_cons_of_mem _ List.mem_cons_self)
    exact congrArg (fun x => { req with topP := x }) heq.symm
  rw [if_neg htopP] at h ⊢
  by_cases hmaxTokens : name.decoded = ascii "max_tokens"
  · rw [if_pos hmaxTokens] at h ⊢
    refine hnumber (fun a ha => ?_) h
    exact congrArg (fun x => { req with maxTokens := x }) (hint a ha hmaxTokens).symm
  rw [if_neg hmaxTokens] at h ⊢
  exact h

/-- A member that is not `messages` leaves the messages as they are. -/
theorem requestMember_messages {R : Reading F} {name : Str} {v : Value} {req req' : ChatRequest F} {n : List UInt8}
    (h : requestMember R name v req = some req') (hname : R.str name = some n) (hn : n ≠ ascii "messages") :
    req'.messages = req.messages := by
  obtain ⟨m, hm, h⟩ := Option.bind_eq_some_iff.1 h
  obtain rfl : n = m := Option.some.inj (hname.symm.trans hm)
  have hset : ∀ {α : Type} {r : Option α} {f : α → Option (ChatRequest F)}, r.bind f = some req' →
      (∀ a q, f a = some q → q.messages = req.messages) → req'.messages = req.messages := by
    intro α r f hbind hf
    obtain ⟨a, -, ha⟩ := Option.bind_eq_some_iff.1 hbind
    exact hf a req' ha
  by_cases hmodel : n = ascii "model"
  · rw [if_pos hmodel] at h
    cases v with
    | str s => exact hset h (by rintro a _ ⟨⟩; rfl)
    | atom a => exact (Option.some_ne_none _ h.symm).elim
    | arr es => exact (Option.some_ne_none _ h.symm).elim
    | obj ms => exact (Option.some_ne_none _ h.symm).elim
  rw [if_neg hmodel, if_neg hn] at h
  by_cases htemperature : n = ascii "temperature"
  · rw [if_pos htemperature] at h
    exact hset h (by rintro a _ ⟨⟩; rfl)
  rw [if_neg htemperature] at h
  by_cases htopP : n = ascii "top_p"
  · rw [if_pos htopP] at h
    exact hset h (by rintro a _ ⟨⟩; rfl)
  rw [if_neg htopP] at h
  by_cases hmaxTokens : n = ascii "max_tokens"
  · rw [if_pos hmaxTokens] at h
    exact hset h (by rintro a _ ⟨⟩; rfl)
  rw [if_neg hmaxTokens] at h
  by_cases hstream : n = ascii "stream"
  · rw [if_pos hstream] at h
    cases v with
    | atom a =>
      change (if a.1 = ascii "true" then _ else _) = some req' at h
      split at h
      · rw [← Option.some.inj h]
      · rw [Option.ite_none_right_eq_some] at h
        rw [← Option.some.inj h.2]
    | arr es => exact (Option.some_ne_none _ h.symm).elim
    | str s => exact (Option.some_ne_none _ h.symm).elim
    | obj ms => exact (Option.some_ne_none _ h.symm).elim
  rw [if_neg hstream] at h
  rw [Option.some.inj h]

/-- Where it has room, the parser reads an object as it is documented. -/
theorem decodeRequest_parsed : ∀ {ms : Members} {req req' : ChatRequest F},
    decodeRequest (documented atof) ms req = some req' → ms.Distinct → Fits atof ms →
    (ascii "messages" ∈ ms.entries.map (fun e => Str.decoded e.1) → req.messages = []) →
    decodeRequest (parsed atof) ms req = some req' := by
  intro ms
  cases ms with
  | empty w =>
    intro req req' h _ _ _
    exact h
  | last k v w =>
    intro req req' h _ hfits hempty
    refine requestMember_parsed h (fun a ha => ?_) (fun a ha => ?_) fun es hes hname => ⟨hempty ?_, ?_⟩
    · exact hfits.float _ _ (by rw [← ha]; exact List.mem_cons_self)
    · exact hfits.int _ _ (by rw [← ha]; exact List.mem_cons_self)
    · rw [← hname]
      exact List.mem_cons_self
    · exact hfits.messages _ _ (by rw [← hes]; exact List.mem_cons_self) hname
  | cons k v w ms =>
    intro req req' h hdistinct hfits hempty
    obtain ⟨b, hb, hms⟩ := Option.bind_eq_some_iff.1 h
    obtain ⟨hnew, hdistinct⟩ := List.nodup_cons.1 hdistinct
    refine Option.bind_eq_some_iff.2 ⟨b, ?_, decodeRequest_parsed hms hdistinct ?_ fun hmem => ?_⟩
    · refine requestMember_parsed hb (fun a ha => ?_) (fun a ha => ?_) fun es hes hname => ⟨hempty ?_, ?_⟩
      · exact hfits.float _ _ (by rw [← ha]; exact List.mem_cons_self)
      · exact hfits.int _ _ (by rw [← ha]; exact List.mem_cons_self)
      · rw [← hname]
        exact List.mem_cons_self
      · exact hfits.messages _ _ (by rw [← hes]; exact List.mem_cons_self) hname
    · exact ⟨fun name a ha => hfits.float name a (List.mem_cons_of_mem _ ha),
        fun name a ha => hfits.int name a (List.mem_cons_of_mem _ ha),
        fun name es hes => hfits.messages name es (List.mem_cons_of_mem _ hes)⟩
    · obtain ⟨n, hname, -⟩ := Option.bind_eq_some_iff.1 hb
      rw [requestMember_messages hb hname]
      · exact hempty (List.mem_cons_of_mem _ hmem)
      · rintro rfl
        rw [← mapM_value hname] at hmem
        exact hnew hmem

/-- A valid request for which there is room is read as it is documented. -/
theorem chatRequestParse_documented (atof : Atof F) (ms : Members) (req : ChatRequest F) (w : Ws) (rest : List UInt8)
    (hvalid : decodeRequest (documented atof) ms (chatRequestInit atof) = some req) (hdistinct : ms.Distinct)
    (hfits : Fits atof ms) :
    Runs (chatRequestParse atof (chatRequestInit atof)) (w.1 ++ (Value.obj ms).text ++ rest) req (closeBrace :: rest) :=
  chatRequestParse_runs (Nat.zero_le _) (decodeRequest_parsed hvalid hdistinct hfits fun _ => rfl) w rest

end

/-! ## Requests on fixed texts -/

def Str.ofAscii (s : String) : Str := (ascii s).filterMap fun c => if h : PlainByte c then some (.plain c h) else none

def Key.ofAscii (s : String) : Key where
  before := ⟨[], nofun⟩
  name := Str.ofAscii s
  between := ⟨[], nofun⟩
  after := ⟨[], nofun⟩

/-- `n` empty messages before `es`. -/
def emptyMessages : Nat → Elements → Elements
  | 0, es => es
  | n + 1, es => .cons ⟨[], nofun⟩ (.obj (.empty ⟨[], nofun⟩)) ⟨[], nofun⟩ (emptyMessages n es)

/-- `{"content":[]}` -/
def arrayMessage : Elements :=
  .last ⟨[], nofun⟩ (.obj (.last (Key.ofAscii "content") (.arr (.empty ⟨[], nofun⟩)) ⟨[], nofun⟩)) ⟨[], nofun⟩

/-- `{"messages":[es],"model":"m"}` -/
def modelRequest (es : Elements) : Members :=
  .cons (Key.ofAscii "messages") (.arr es) ⟨[], nofun⟩
    (.last (Key.ofAscii "model") (.str (Str.ofAscii "m")) ⟨[], nofun⟩)

def noNumbers : Atof Unit := ⟨(), fun _ => (), fun _ => 0⟩

/-- `{"role":"user","content":"hi"},{"content":[{"type":"text","text":"you"}]}` -/
def talkMessages : Elements :=
  .cons ⟨[], nofun⟩ (.obj (.cons (Key.ofAscii "role") (.str (Str.ofAscii "user")) ⟨[], nofun⟩
      (.last (Key.ofAscii "content") (.str (Str.ofAscii "hi")) ⟨[], nofun⟩))) ⟨[], nofun⟩
    (.last ⟨[], nofun⟩ (.obj (.last (Key.ofAscii "content") (.arr (.last ⟨[], nofun⟩
      (.obj (.cons (Key.ofAscii "type") (.str (Str.ofAscii "text")) ⟨[], nofun⟩
        (.last (Key.ofAscii "text") (.str (Str.ofAscii "you")) ⟨[], nofun⟩))) ⟨[], nofun⟩)) ⟨[], nofun⟩)) ⟨[], nofun⟩)

theorem half_atom : ascii "0.5" ≠ [] ∧ ∀ c ∈ ascii "0.5", AtomByte c := by decide +kernel

/-- `{"messages":[..],"temperature":0.5,"model":"m"}` -/
def talkRequest : Members :=
  .cons (Key.ofAscii "messages") (.arr talkMessages) ⟨[], nofun⟩
    (.cons (Key.ofAscii "temperature") (.atom ⟨ascii "0.5", half_atom⟩) ⟨[], nofun⟩
      (.last (Key.ofAscii "model") (.str (Str.ofAscii "m")) ⟨[], nofun⟩))

/-- A number that tells its texts apart by their lengths. -/
def lengthNumbers : Atof Nat := ⟨1, List.length, fun text => text.length⟩

theorem chatRequestParse_documented_talk : ∃ req, decodeRequest (documented lengthNumbers) talkRequest
    (chatRequestInit lengthNumbers) = some req ∧
      req.messages.map (fun msg => (msg.role, msg.content)) =
        [(ascii "user", some (ascii "hi")), ([], some (ascii "you"))] ∧ req.temperature = 3 ∧
      Runs (chatRequestParse lengthNumbers (chatRequestInit lengthNumbers))
        ([] ++ (Value.obj talkRequest).text ++ [0]) req [closeBrace, 0] := by
  obtain ⟨req, hreq⟩ : ∃ req, decodeRequest (documented lengthNumbers) talkRequest (chatRequestInit lengthNumbers) =
      some req := Option.isSome_iff_exists.1 (by decide +kernel)
  have hfields : ((decodeRequest (documented lengthNumbers) talkRequest (chatRequestInit lengthNumbers)).map fun req =>
      (req.messages.map (fun msg => (msg.role, msg.content)), req.temperature)) =
      some ([(ascii "user", some (ascii "hi")), ([], some (ascii "you"))], 3) := by decide +kernel
  rw [hreq, Option.map_some, Option.some.injEq, Prod.mk.injEq] at hfields
  refine ⟨req, hreq, hfields.1, hfields.2, ?_⟩
  refine chatRequestParse_documented lengthNumbers talkRequest req ⟨[], nofun⟩ [0] hreq (by decide +kernel) ⟨?_, ?_, ?_⟩
  · intro name a h _
    have ha : a.1 = ascii "0.5" := by
      simp only [talkRequest, Members.entries, List.mem_cons, Prod.mk.injEq, reduceCtorEq, and_false, false_or,
        List.not_mem_nil, or_false, Value.atom.injEq] at h
      exact congrArg Subtype.val h.2
    rw [ha]
    rfl
  · intro name a h hname
    have htemperature : name = (Key.ofAscii "temperature").name := by
      simp only [talkRequest, Members.entries, List.mem_cons, Prod.mk.injEq, reduceCtorEq, and_false, false_or,
        List.not_mem_nil, or_false, Value.atom.injEq] at h
      exact h.1
    rw [htemperature] at hname
    exact absurd hname (by decide +kernel)
  · intro name es h _
    have hes : es = talkMessages := by
      simp only [talkRequest, Members.entries, List.mem_cons, Prod.mk.injEq, reduceCtorEq, and_false, or_false,
        List.not_mem_nil, Value.arr.injEq] at h
      exact h.2
    rw [hes]
    exact .inl (by decide)

/-- The bracket in the content of a surplus message ends the messages, and the brace behind it the request. -/
theorem model_behind_surplus : ∃ req, decodeRequest (documented noNumbers)
      (modelRequest (emptyMessages chatMaxMessages arrayMessage)) (chatRequestInit noNumbers) = some req ∧
    (modelRequest (emptyMessages chatMaxMessages arrayMessage)).Distinct ∧ ∀ s,
      ¬ Runs (chatRequestParse noNumbers (chatRequestInit noNumbers))
        ((Value.obj (modelRequest (emptyMessages chatMaxMessages arrayMessage))).text ++ [0]) req s := by
  obtain ⟨req, hreq⟩ : ∃ req, decodeRequest (documented noNumbers)
      (modelRequest (emptyMessages chatMaxMessages arrayMessage)) (chatRequestInit noNumbers) = some req :=
    Option.isSome_iff_exists.1 (by decide +kernel)
  have hmodel : (decodeRequest (documented noNumbers) (modelRequest (emptyMessages chatMaxMessages arrayMessage))
      (chatRequestInit noNumbers)).map ChatRequest.model = some (ascii "m") := by decide +kernel
  have hlocal : (match (chatRequestParse noNumbers (chatRequestInit noNumbers)
      ((Value.obj (modelRequest (emptyMessages chatMaxMessages arrayMessage))).text ++ [0])).outcome with
    | .ok req => req.model
    | _ => []) = ascii "local" := by decide +kernel
  refine ⟨req, hreq, by decide +kernel, fun s hrun => ?_⟩
  rw [hrun.outcome] at hlocal
  rw [hreq, Option.map_some, Option.some.injEq] at hmodel
  exact absurd (hmodel.symm.trans hlocal) (by decide)

end BitForge.Api
