/-
The cancel registry of `api/cancel.c` under the handlers of `api/http_server.c`: generations one at
a time under `generation_mutex`, each registered under the id that its stream shows, and cancel
requests from any thread. The functions of the registry are atomic, as each of them runs under its
lock.
-/
import BitForge.Lib.CString
import BitForge.Lib.Run
import Mathlib.Tactic

namespace BitForge.Api

open BitForge.Lib

/-! ## The registry -/

structure CancelState where
  id : List UInt8
  active : Bool
  cancelRequested : Bool
deriving DecidableEq, Repr

/-- `cancel_state_init`. -/
def cancelStateInit : CancelState := ⟨[], false, false⟩

/-- `cancel_registry_begin`; the field `id` has room for 31 characters. -/
def cancelRegistryBegin (id : List UInt8) : CancelState := ⟨id.take 31, true, false⟩

/-- `cancel_registry_end`. -/
def cancelRegistryEnd : CancelState := ⟨[], false, false⟩

/-- `cancel_registry_check`. -/
def cancelRegistryCheck (cs : CancelState) (id : List UInt8) : Bool := cs.active && cs.cancelRequested && cs.id = id

/-- `cancel_registry_request`. -/
def cancelRegistryRequest (cs : CancelState) (id : List UInt8) : Bool × CancelState :=
  if cs.active ∧ cs.id = id then (true, { cs with cancelRequested := true }) else (false, cs)

/-! ## The requests -/

/-- The text behind the opening quote of the value of the first `"id"`. -/
def idText (jsonBody : List UInt8) : Option (List UInt8) :=
  (strstr jsonBody (ascii "\"id\"")).bind fun key =>
    (afterChar 58 (jsonBody.drop key)).bind fun p =>
      match p.dropWhile fun c => c = 32 ∨ c = 9 with
      | 34 :: text => some text
      | _ => none

/-- `extract_id_field` into a buffer of `outCap` bytes. -/
def extractIdField (jsonBody : List UInt8) (outCap : Nat) : Option (List UInt8) :=
  (idText jsonBody).bind fun text =>
    let out := (text.takeWhile (· ≠ 34)).take (outCap - 1)
    if out.length > 0 then some out else none

/-- The id that a request names, before it is cut to the buffer. -/
def namedId (jsonBody : List UInt8) : Option (List UInt8) := (idText jsonBody).map fun text => text.takeWhile (· ≠ 34)

/-- The id in the stream of a generation, `st.public_id`. -/
def publicId (id : List UInt8) : List UInt8 := (ascii "chatcmpl-" ++ id).take 47

/-! ## Generations and requests in any order -/

/-- Where `handle_chat_completions` is. -/
inductive Stage
  | waiting
  | locked
  | generating
  | ended
  | done
deriving DecidableEq, Repr

/-- What happened at the registry: a request with its body and the answer, a check with its answer. -/
inductive CancelEvent (G : Type)
  | began (g : G)
  | ended (g : G)
  | requested (body : List UInt8) (matched : Bool)
  | checked (g : G) (result : Bool)
deriving DecidableEq, Repr

/-- The shared state, and the events so far. -/
structure Registry (G : Type) where
  generationMutex : Option G
  stage : G → Stage
  cancel : CancelState
  trace : List (CancelEvent G)

inductive CancelAction (G : Type)
  /-- `pthread_mutex_trylock` -/
  | trylock (g : G)
  | begin (g : G)
  /-- the end of `streaming_token_callback` -/
  | check (g : G)
  | finish (g : G)
  /-- `pthread_mutex_unlock`, also on the way out before the generation -/
  | unlock (g : G)
  /-- `handle_cancel` with a body -/
  | cancel (body : List UInt8)

variable {G : Type} [DecidableEq G] (ids : G → List UInt8)

def Registry.setStage (s : Registry G) (g : G) (st : Stage) : Registry G := { s with stage := Function.update s.stage g st }

def Registry.log (s : Registry G) (e : CancelEvent G) : Registry G := { s with trace := s.trace ++ [e] }

def registryStep (s : Registry G) : CancelAction G → Option (Registry G)
  | .trylock g =>
    if s.stage g = .waiting then
      if s.generationMutex = none then some { s.setStage g .locked with generationMutex := some g }
      else some (s.setStage g .done)
    else none
  | .begin g =>
    if s.stage g = .locked then
      some ({ s.setStage g .generating with cancel := cancelRegistryBegin (publicId (ids g)) }.log (.began g))
    else none
  | .check g =>
    if s.stage g = .generating then some (s.log (.checked g (cancelRegistryCheck s.cancel (publicId (ids g)))))
    else none
  | .finish g =>
    if s.stage g = .generating then some ({ s.setStage g .ended with cancel := cancelRegistryEnd }.log (.ended g))
    else none
  | .unlock g =>
    if s.stage g = .locked ∨ s.stage g = .ended then some { s.setStage g .done with generationMutex := none }
    else none
  | .cancel body =>
    match extractIdField (untilNul body) 32 with
    | none => some s
    | some id =>
      let r := cancelRegistryRequest s.cancel id
      some ({ s with cancel := r.2 }.log (.requested body r.1))

/-- The server at its start; every generation has its place in `G`. -/
def registrySystem : System (Registry G) (CancelAction G) where
  init := ⟨none, fun _ => .waiting, cancelStateInit, []⟩
  step := registryStep ids

/-! ## The protocol -/

/-- A request names the id that the generation shows. -/
def NamesGeneration (body : List UInt8) (g : G) : Prop := namedId (untilNul body) = some (publicId (ids g))

/-- The generation began and has not ended. -/
def Running (trace : List (CancelEvent G)) (g : G) : Prop := .began g ∈ trace ∧ .ended g ∉ trace

/-- A request that names the generation took effect after it began. -/
def CancelledSince (trace : List (CancelEvent G)) (g : G) : Prop :=
  ∃ before since body matched,
    trace = before ++ .began g :: since ∧ .requested body matched ∈ since ∧ NamesGeneration ids body g

/-- What an event says, by the events before it. -/
def CancelEvent.Ok (before : List (CancelEvent G)) : CancelEvent G → Prop
  | .began _ | .ended _ => True
  | .checked g result => Running before g ∧ (result = true ↔ CancelledSince ids before g)
  | .requested body matched =>
    (matched = true → ∃ g, NamesGeneration ids body g) ∧
      ∀ g, NamesGeneration ids body g → (matched = true ↔ Running before g)

def TraceOk (trace : List (CancelEvent G)) : Prop :=
  ∀ before e after, trace = before ++ e :: after → e.Ok ids before

end BitForge.Api
