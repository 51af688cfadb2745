/-
Prompts from chat messages, `api/chat_compile.c`: the texts that each template appends to the buffer, and what is in the
buffer when it returns.
-/
import BitForge.Api.JsonParse
import Mathlib.Data.List.GetD

namespace BitForge.Api

open BitForge.Lib

/-! ## The buffer -/

/-- The buffer `out` and the offset. -/
structure OutBuf where
  mem : Nat → UInt8
  off : Nat

/-- `buf_append`, and what it returns. -/
def bufAppend (cap : Nat) (b : OutBuf) (src : List UInt8) : Bool × OutBuf :=
  let rem := if cap > b.off then cap - b.off else 0
  if rem = 0 then (false, b)
  else
    let n := if src.length ≥ rem then rem - 1 else src.length
    let mem := fun a =>
      if b.off ≤ a ∧ a < b.off + n then src.getD (a - b.off) 0
      else if a = b.off + n then 0
      else b.mem a
    (n > 0 || src.length == 0, ⟨mem, b.off + n⟩)

/-- Appends one after the other, up to one that fails. -/
def appendAll (cap : Nat) : OutBuf → List (List UInt8) → Bool × OutBuf
  | b, [] => (true, b)
  | b, src :: rest =>
    let r := bufAppend cap b src
    if r.1 then appendAll cap r.2 rest else r

/-! ## The templates -/

inductive ChatTemplateType where
  | chatml
  | llama3
  | deepseek
  | mistral
  | raw
deriving DecidableEq, Repr

section

-- how a header is printed into a buffer of a size
variable (print : Nat → List UInt8 → List UInt8)

/-- `compile_chatml` -/
def compileChatml (messages : List ChatMessage) : List (List UInt8) :=
  (messages.flatMap fun m =>
    match m.content with
    | none => []
    | some content =>
      let header := print 128 (ascii "<|im_start|>" ++ m.role ++ ascii "\n")
      [header, content, ascii "<|im_end|>\n"]) ++
    [ascii "<|im_start|>assistant\n"]

/-- `compile_llama3` -/
def compileLlama3 (messages : List ChatMessage) : List (List UInt8) :=
  [ascii "<|begin_of_text|>"] ++
    (messages.flatMap fun m =>
      match m.content with
      | none => []
      | some content =>
        let header := print 256 (ascii "<|start_header_id|>" ++ m.role ++ ascii "<|end_header_id|>\n\n")
        [header, content, ascii "<|eot_id|>"]) ++
    [ascii "<|start_header_id|>assistant<|end_header_id|>\n\n"]

/-- `bos` and `eos` of `compile_deepseek` -/
def deepseekMark (name : String) : List UInt8 :=
  ascii "<" ++ [0xef, 0xbd, 0x9c] ++ ascii name ++ [0xe2, 0x96, 0x81] ++ ascii "of" ++ [0xe2, 0x96, 0x81] ++
    ascii "sentence" ++ [0xef, 0xbd, 0x9c] ++ ascii ">"

/-- `compile_deepseek` -/
def compileDeepseek (messages : List ChatMessage) : List (List UInt8) :=
  [deepseekMark "begin"] ++
    (messages.flatMap fun m =>
      match m.content with
      | none => []
      | some content =>
        if m.role = ascii "user" then [ascii "User: ", content, ascii "\n\n"]
        else if m.role = ascii "assistant" then [ascii "Assistant: ", content, deepseekMark "end"]
        else [content, ascii "\n\n"]) ++
    [ascii "Assistant:"]

/-- `compile_mistral` -/
def compileMistral (messages : List ChatMessage) : List (List UInt8) :=
  [ascii "<s>"] ++
    messages.flatMap fun m =>
      match m.content with
      | none => []
      | some content =>
        if m.role = ascii "user" then [ascii "[INST] ", content, ascii " [/INST]"]
        else if m.role = ascii "assistant" then [ascii " ", content, ascii "</s>"]
        else []

/-- `compile_raw` -/
def compileRaw (messages : List ChatMessage) : List (List UInt8) :=
  messages.flatMap fun m =>
    match m.content with
    | none => []
    | some content =>
      let header := print 64 (m.role ++ ascii ": ")
      [header, content, ascii "\n"]

/-- The texts that are appended for a template. -/
def compileTexts (tmpl : ChatTemplateType) (messages : List ChatMessage) : List (List UInt8) :=
  match tmpl with
  | .chatml => compileChatml print messages
  | .llama3 => compileLlama3 print messages
  | .deepseek => compileDeepseek messages
  | .mistral => compileMistral messages
  | .raw => compileRaw print messages

end

/-- `snprintf` into a header. -/
def printHeader (size : Nat) (text : List UInt8) : List UInt8 := text.take (size - 1)

/-- `chat_compile_prompt` with a buffer of at least one byte: whether it returns `TN_OK`, and the buffer. -/
def chatCompilePrompt (messages : List ChatMessage) (tmpl : ChatTemplateType) (out : Nat → UInt8) (cap : Nat) : Bool × OutBuf :=
  appendAll cap ⟨fun a => if a = 0 then 0 else out a, 0⟩ (compileTexts printHeader tmpl messages)

/-- The complete texts of a template, and the rendering that they make up. -/
def fullTexts (tmpl : ChatTemplateType) (messages : List ChatMessage) : List (List UInt8) :=
  compileTexts (fun _ text => text) tmpl messages

def rendering (tmpl : ChatTemplateType) (messages : List ChatMessage) : List UInt8 := (fullTexts tmpl messages).flatten

/-- The texts before the last that is not empty. -/
def beforeLast (texts : List (List UInt8)) : List (List UInt8) := (texts.filter (· ≠ [])).dropLast

/-! ## Appending -/

/-- The buffer has a text, or what of it fits before the NUL, and is as it was from `cap` on. -/
structure HasText (cap : Nat) (out : Nat → UInt8) (b : OutBuf) (text : List UInt8) : Prop where
  off : b.off = min text.length (cap - 1)
  text : ∀ a < b.off, b.mem a = text.getD a 0
  nul : b.mem b.off = 0
  outside : ∀ a, cap ≤ a → b.mem a = out a

variable {cap : Nat} {out : Nat → UInt8} {b : OutBuf} {text : List UInt8}

/-- A text that is cut is cut the same with more behind it. -/
theorem HasText.more (h : HasText cap out b text) (hfull : cap - 1 ≤ text.length) (more : List UInt8) :
    HasText cap out b (text ++ more) where
  off := by
    rw [h.off, List.length_append]
    omega
  text a ha := by
    rw [h.text a ha, List.getD_append _ _ _ _ (by have := h.off; omega)]
  nul := h.nul
  outside := h.outside

/-- An append adds a text, and fails where it is not empty and nothing is free. -/
theorem HasText.append (h : HasText cap out b text) (hcap : 1 ≤ cap) (src : List UInt8) :
    HasText cap out (bufAppend cap b src).2 (text ++ src) ∧
      ((bufAppend cap b src).1 = true ↔ src = [] ∨ text.length + 1 < cap) := by
  have hoff := h.off
  unfold bufAppend
  dsimp only
  rw [if_pos (show cap > b.off by omega), if_neg (show ¬cap - b.off = 0 by omega)]
  generalize hn : (if src.length ≥ cap - b.off then cap - b.off - 1 else src.length) = n
  have hend : b.off + n = min (text ++ src).length (cap - 1) := by
    rw [List.length_append]
    split_ifs at hn <;> omega
  refine ⟨{ off := hend, text := fun a ha => ?_, nul := ?_, outside := fun a ha => ?_ }, ?_⟩
  · dsimp only at ha ⊢
    by_cases hold : a < b.off
    · rw [if_neg (by omega), if_neg (by omega), h.text a hold, List.getD_append _ _ _ _ (by omega)]
    · have hlen : b.off = text.length := by
        rw [List.length_append] at hend
        omega
      rw [if_pos ⟨by omega, ha⟩, List.getD_append_right _ _ _ _ (by omega), hlen]
  · dsimp only
    rw [if_neg (by omega), if_pos rfl]
  · dsimp only
    rw [if_neg (by omega), if_neg (by omega), h.outside a ha]
  · simp only [Bool.or_eq_true, decide_eq_true_eq, beq_iff_eq, List.length_eq_zero_iff]
    by_cases hsrc : src = []
    · simp [hsrc]
    · have hpos : 0 < src.length := List.length_pos_iff.2 hsrc
      simp only [hsrc, or_false, false_or]
      split_ifs at hn <;> omega

/-- The appends of a template: the buffer has the whole text or what fits, and they succeed if there is room for more than the
texts before the last one. -/
theorem HasText.appendAll : ∀ {texts : List (List UInt8)} {b : OutBuf} {text : List UInt8}, HasText cap out b text → 1 ≤ cap →
    HasText cap out (Api.appendAll cap b texts).2 (text ++ texts.flatten) ∧
      ((Api.appendAll cap b texts).1 = true ↔
        texts.filter (· ≠ []) = [] ∨ text.length + (beforeLast texts).flatten.length + 1 < cap)
  | [], b, text, h, _ => ⟨by simpa [Api.appendAll] using h, by simp [Api.appendAll]⟩
  | src :: rest, b, text, h, hcap => by
    obtain ⟨hsrc, hok⟩ := h.append hcap src
    unfold Api.appendAll beforeLast
    dsimp only
    by_cases hfit : (bufAppend cap b src).1 = true
    · obtain ⟨hrest, hrestok⟩ := @HasText.appendAll rest _ _ hsrc hcap
      unfold beforeLast at hrestok
      rw [if_pos hfit]
      refine ⟨by simpa [List.append_assoc] using hrest, ?_⟩
      rw [hrestok]
      by_cases hsrc : src = []
      · simp [hsrc]
      · have hroom := (hok.1 hfit).resolve_left hsrc
        rw [List.filter_cons_of_pos (by simpa using hsrc)]
        by_cases hrest : rest.filter (· ≠ []) = []
        · rw [hrest]
          simpa using hroom
        · rw [List.dropLast_cons_of_ne_nil hrest]
          simp only [hrest, List.flatten_cons, List.length_append, reduceCtorEq, false_or]
          omega
    · rw [if_neg hfit]
      have hnot := mt hok.2 hfit
      rw [not_or] at hnot
      refine ⟨?_, ?_⟩
      · rw [List.flatten_cons, ← List.append_assoc]
        exact hsrc.more (by rw [List.length_append]; omega) _
      · refine iff_of_false hfit ?_
        rw [List.filter_cons_of_pos (by simpa using hnot.1)]
        simp only [reduceCtorEq, false_or]
        omega

/-! ## The prompt -/

theorem flatten_nonempty : ∀ texts : List (List UInt8), (texts.filter (· ≠ [])).flatten = texts.flatten
  | [] => rfl
  | src :: rest => by
    by_cases hsrc : src = []
    · simp [hsrc, ← flatten_nonempty rest]
    · rw [List.filter_cons_of_pos (by simpa using hsrc), List.flatten_cons, List.flatten_cons, flatten_nonempty rest]

theorem ascii_length (s : String) : (ascii s).length = s.toList.length := List.length_map _

/-- Headers are printed whole, for the role of a message has at most 31 characters. -/
theorem compileTexts_eq (tmpl : ChatTemplateType) {messages : List ChatMessage} (hroles : ∀ m ∈ messages, m.role.length < 32) :
    compileTexts printHeader tmpl messages = fullTexts tmpl messages := by
  have hprint : ∀ (size : Nat) (pre post : String), pre.toList.length + post.toList.length + 32 < size → ∀ m ∈ messages,
      printHeader size (ascii pre ++ m.role ++ ascii post) = ascii pre ++ m.role ++ ascii post := by
    intro size pre post hsize m hm
    have hrole := hroles m hm
    refine List.take_of_length_le ?_
    simp only [List.length_append, ascii_length]
    omega
  unfold fullTexts compileTexts
  cases tmpl
  case chatml =>
    refine congrArg (· ++ _) (List.flatMap_congr fun m hm => ?_)
    cases m.content with
    | none => rfl
    | some content => rw [hprint 128 "<|im_start|>" "\n" (by decide) m hm]
  case llama3 =>
    refine congrArg (_ ++ · ++ _) (List.flatMap_congr fun m hm => ?_)
    cases m.content with
    | none => rfl
    | some content => rw [hprint 256 "<|start_header_id|>" "<|end_header_id|>\n\n" (by decide) m hm]
  case deepseek => rfl
  case mistral => rfl
  case raw =>
    refine List.flatMap_congr fun m hm => ?_
    cases m.content with
    | none => rfl
    | some content =>
      have h := hprint 64 "" ": " (by decide) m hm
      rw [show ascii "" = [] from rfl, List.nil_append] at h
      rw [h]

/-- The buffer gets the rendering or what of it fits, with its NUL and nothing behind the capacity; all is well if there is
room for more than the texts before the last one. -/
theorem chatCompilePrompt_spec (tmpl : ChatTemplateType) {messages : List ChatMessage} (hroles : ∀ m ∈ messages, m.role.length < 32)
    (out : Nat → UInt8) {cap : Nat} (hcap : 1 ≤ cap) :
    HasText cap out (chatCompilePrompt messages tmpl out cap).2 (rendering tmpl messages) ∧
      ((chatCompilePrompt messages tmpl out cap).1 = true ↔
        (rendering tmpl messages).length < cap ∨ (beforeLast (fullTexts tmpl messages)).flatten.length + 1 < cap) := by
  have hstart : HasText cap out ⟨fun a => if a = 0 then 0 else out a, 0⟩ [] :=
    { off := by simp
      text := fun a ha => absurd ha (by simp)
      nul := rfl
      outside := fun a ha => if_neg (by omega) }
  obtain ⟨htext, hok⟩ := @HasText.appendAll _ _ (fullTexts tmpl messages) _ _ hstart hcap
  unfold chatCompilePrompt rendering
  rw [compileTexts_eq tmpl hroles]
  refine ⟨by simpa using htext, hok.trans ?_⟩
  have hflat : (fullTexts tmpl messages).flatten = ((fullTexts tmpl messages).filter (· ≠ [])).flatten :=
    (flatten_nonempty _).symm
  rw [hflat, List.length_nil, Nat.zero_add]
  unfold beforeLast
  by_cases hnone : (fullTexts tmpl messages).filter (· ≠ []) = []
  · rw [hnone]
    simp
    omega
  · have hlast := List.dropLast_append_getLast hnone
    have hne : ((fullTexts tmpl messages).filter (· ≠ [])).getLast hnone ≠ [] := by
      simpa using (List.mem_filter.1 (List.getLast_mem hnone)).2
    have hpos := List.length_pos_iff.2 hne
    have hlen : ((fullTexts tmpl messages).filter (· ≠ [])).flatten.length =
        ((fullTexts tmpl messages).filter (· ≠ [])).dropLast.flatten.length +
          (((fullTexts tmpl messages).filter (· ≠ [])).getLast hnone).length := by
      conv_lhs => rw [← hlast]
      simp
    simp only [hnone, false_or]
    omega

theorem chatCompilePrompt_spec_user :
    HasText 64 (fun _ => 7) (chatCompilePrompt [⟨ascii "user", some (ascii "Hi"), none⟩] .mistral (fun _ => 7) 64).2
      (rendering .mistral [⟨ascii "user", some (ascii "Hi"), none⟩]) :=
  (chatCompilePrompt_spec .mistral (by decide) _ (by decide)).1

/-- A prompt that is cut in the end marker, without an error. -/
theorem prompt_cut : let messages : List ChatMessage := [⟨ascii "user", some (ascii "Hi"), none⟩]
    (chatCompilePrompt messages .mistral (fun _ => 7) 16).1 = true ∧ 16 ≤ (rendering .mistral messages).length := by
  decide

end BitForge.Api
