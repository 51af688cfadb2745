/-
The request counters of `api/metrics.c` against the responses: over a run of connections they agree
after each of them exactly if every connection's response has the class of status that it records.
-/
import BitForge.Api.Connection
import Mathlib.Tactic

namespace BitForge.Api

open BitForge.Lib

/-! ## Counters -/

/-- The request counters of `MetricsState`. -/
structure MetricsState where
  requestsTotal : Nat
  requests2xx : Nat
  requests4xx : Nat
  requests5xx : Nat
deriving DecidableEq, Repr

/-- `metrics_init`. -/
def metricsInit : MetricsState := ⟨0, 0, 0, 0⟩

/-- `metrics_record_request`. -/
def metricsRecordRequest (m : MetricsState) (statusCode : Nat) : MetricsState :=
  let m := { m with requestsTotal := m.requestsTotal + 1 }
  if 200 ≤ statusCode ∧ statusCode < 300 then { m with requests2xx := m.requests2xx + 1 }
  else if 400 ≤ statusCode ∧ statusCode < 500 then { m with requests4xx := m.requests4xx + 1 }
  else if 500 ≤ statusCode then { m with requests5xx := m.requests5xx + 1 }
  else m

def is2xx (status : Nat) : Bool := 200 ≤ status ∧ status < 300
def is4xx (status : Nat) : Bool := 400 ≤ status ∧ status < 500
def is5xx (status : Nat) : Bool := 500 ≤ status

/-- What arrives on a connection, and what its handlers find. -/
structure Connection where
  stream : List UInt8
  sizes : List Nat
  env : Surroundings

/-- The counters and the statuses of the responses so far. -/
structure ServerRun where
  metrics : MetricsState
  sent : List Nat
deriving DecidableEq, Repr

variable (cfg : ServerConfig)

/-- A connection from its start to its close. -/
def ServerRun.serve (s : ServerRun) (c : Connection) : ServerRun :=
  let h := handleConnection cfg c.env c.stream c.sizes
  { metrics := h.recorded.elim s.metrics (metricsRecordRequest s.metrics)
    sent := s.sent ++ [h.response.status] }

def serverRun (conns : List Connection) : ServerRun := conns.foldl (ServerRun.serve cfg) ⟨metricsInit, []⟩

/-- Each counter is the number of responses in its class. -/
structure Agree (s : ServerRun) : Prop where
  ok2xx : s.metrics.requests2xx = s.sent.countP is2xx
  ok4xx : s.metrics.requests4xx = s.sent.countP is4xx
  ok5xx : s.metrics.requests5xx = s.sent.countP is5xx

/-! ## Which connections are recorded as they are answered -/

/-- A chat request that comes to its generation. -/
def ChatGenerates (env : Surroundings) (body : List UInt8) : Prop :=
  env.generationFree = true ∧ env.bodyAlloc = true ∧
    (∃ numMessages, env.chatRequestParse (untilNul body) = some numMessages ∧ numMessages ≠ 0) ∧
    (env.hasChatTemplate = true ∨ env.promptAlloc = true ∧ env.chatCompilePrompt (untilNul body) = true)

/-- A cancel request for the generation in flight. -/
def CancelHits (env : Surroundings) (body : List UInt8) : Prop :=
  env.bodyAlloc = true ∧
    ∃ id, extractIdField (untilNul body) 32 = some id ∧ env.cancel.active = true ∧ env.cancel.id = id

/-- A request that parses, is no preflight, and is refused for its key, routed to a handler that
reports its status, or answered with 200. -/
def RecordedAsSent (env : Surroundings) (raw : List UInt8) : Prop :=
  ∃ req, httpParse raw = some req ∧ req.method ≠ ascii "OPTIONS" ∧
    (¬ (req.method = ascii "GET" ∧ req.path = ascii "/health") ∧ authCheckRequest cfg.apiKey req.authorization = false ∨
      (route cfg req.method req.path = .chat → ChatGenerates env req.body) ∧
        (route cfg req.method req.path = .cancel → CancelHits env req.body))

/-- The request arrives in full size and is recorded as it is answered. -/
def Connection.Recorded (c : Connection) : Prop :=
  ∃ s, receive c.stream c.sizes = .got s ∧ RecordedAsSent cfg c.env s.buf

variable {cfg}

theorem handleChatCompletions_cases (env : Surroundings) (body : List UInt8) :
    ChatGenerates env body ∧ handleChatCompletions env body = 200 ∨
      ¬ ChatGenerates env body ∧ 400 ≤ handleChatCompletions env body := by
  unfold ChatGenerates handleChatCompletions
  cases env.generationFree <;> simp
  cases env.bodyAlloc <;> simp
  cases env.chatRequestParse (untilNul body) with
  | none => simp
  | some numMessages =>
    by_cases h0 : numMessages = 0
    · simp [h0]
    · cases env.hasChatTemplate <;> cases env.promptAlloc <;> cases env.chatCompilePrompt (untilNul body) <;> simp [h0]

theorem handleCancel_cases (env : Surroundings) (body : List UInt8) :
    CancelHits env body ∧ handleCancel env body = 200 ∨ ¬ CancelHits env body ∧ 400 ≤ handleCancel env body := by
  unfold CancelHits handleCancel cancelRegistryRequest
  cases env.bodyAlloc with
  | false => exact .inr ⟨fun h => (nomatch h.1), by simp⟩
  | true =>
    cases extractIdField (untilNul body) 32 with
    | none => exact .inr ⟨fun ⟨_, _, h, _⟩ => (nomatch h), by simp⟩
    | some id =>
      by_cases h : env.cancel.active = true ∧ env.cancel.id = id
      · exact .inl ⟨⟨rfl, id, rfl, h⟩, by simp [h]⟩
      · refine .inr ⟨?_, by simp [h]⟩
        rintro ⟨-, _, ⟨⟩, hmatch⟩
        exact h hmatch

/-- The web UI returns the status that it sends. -/
theorem staticAssetsServe_same (env : Surroundings) (path : List UInt8) :
    (staticAssetsServe cfg env path).1 = (staticAssetsServe cfg env path).2 := by
  unfold staticAssetsServe
  split
  · unfold serveFromDisk
    split
    · rfl
    · dsimp only
      split <;> rfl
  · unfold serveFromBundle
    split <;> rfl

/-- A connection whose recorded status, if any, has the class of the one that was sent. -/
structure Told (h : Handled) : Prop where
  told2xx : h.recorded.elim false is2xx = is2xx h.response.status
  told4xx : h.recorded.elim false is4xx = is4xx h.response.status
  told5xx : h.recorded.elim false is5xx = is5xx h.response.status

theorem told_same {status : Nat} {extra : List UInt8} {req : Option HttpRequest} :
    Told ⟨⟨status, extra⟩, some status, req⟩ :=
  ⟨rfl, rfl, rfl⟩

/-- A handler error recorded as 200 goes to the wrong class. -/
theorem not_told_error {status : Nat} {extra : List UInt8} {req : Option HttpRequest} (h : 400 ≤ status) :
    ¬ Told ⟨⟨status, extra⟩, some 200, req⟩ := by
  intro ht
  have h2 := ht.told2xx
  simp [is2xx] at h2
  omega

/-- A response that is not recorded is missing in its class. -/
theorem not_told_none {status : Nat} {extra : List UInt8} {req : Option HttpRequest}
    (h : (is2xx status || is4xx status || is5xx status) = true) : ¬ Told ⟨⟨status, extra⟩, none, req⟩ := by
  intro ht
  have h2 := ht.told2xx
  have h4 := ht.told4xx
  have h5 := ht.told5xx
  dsimp only [Option.elim_none] at h2 h4 h5
  rw [← h2, ← h4, ← h5] at h
  cases h

theorem dispatch_told {env : Surroundings} {req : HttpRequest} {extra : List UInt8} :
    Told ⟨⟨(dispatch cfg env req).1, extra⟩, some (dispatch cfg env req).2, some req⟩ ↔
      (route cfg req.method req.path = .chat → ChatGenerates env req.body) ∧
        (route cfg req.method req.path = .cancel → CancelHits env req.body) := by
  unfold dispatch
  cases hr : route cfg req.method req.path with
  | chat =>
    rcases handleChatCompletions_cases env req.body with ⟨hgen, hstatus⟩ | ⟨hgen, hstatus⟩
    · rw [hstatus]
      exact iff_of_true told_same ⟨fun _ => hgen, nofun⟩
    · exact iff_of_false (not_told_error hstatus) fun h => hgen (h.1 rfl)
  | cancel =>
    rcases handleCancel_cases env req.body with ⟨hhit, hstatus⟩ | ⟨hhit, hstatus⟩
    · rw [hstatus]
      exact iff_of_true told_same ⟨nofun, fun _ => hhit⟩
    · exact iff_of_false (not_told_error hstatus) fun h => hhit (h.2 rfl)
  | webUi =>
    dsimp only
    rw [staticAssetsServe_same]
    exact iff_of_true told_same ⟨nofun, nofun⟩
  | metrics =>
    dsimp only
    split <;> exact iff_of_true told_same ⟨nofun, nofun⟩
  | models => exact iff_of_true told_same ⟨nofun, nofun⟩
  | health => exact iff_of_true told_same ⟨nofun, nofun⟩
  | docs => exact iff_of_true told_same ⟨nofun, nofun⟩
  | openapi => exact iff_of_true told_same ⟨nofun, nofun⟩
  | notFound => exact iff_of_true told_same ⟨nofun, nofun⟩

theorem handleRequest_told {env : Surroundings} {raw : List UInt8} :
    Told (handleRequest cfg env raw) ↔ RecordedAsSent cfg env raw := by
  unfold handleRequest RecordedAsSent
  cases hp : httpParse raw with
  | none => exact iff_of_false (not_told_none rfl) fun ⟨_, h, _⟩ => nomatch h
  | some req =>
    dsimp only
    split
    · next hopt =>
      refine iff_of_false (not_told_none rfl) ?_
      rintro ⟨_, ⟨⟩, hne, -⟩
      exact hne hopt
    · next hopt =>
      split
      · next hauth => exact iff_of_true told_same ⟨req, rfl, hopt, .inl ⟨hauth.1, by simpa using hauth.2⟩⟩
      · next hauth =>
        rw [dispatch_told]
        constructor
        · exact fun h => ⟨req, rfl, hopt, .inr h⟩
        · rintro ⟨_, ⟨⟩, -, h | h⟩
          · exact absurd ⟨h.1, by simp [h.2]⟩ hauth
          · exact h

theorem handleConnection_told {c : Connection} :
    Told (handleConnection cfg c.env c.stream c.sizes) ↔ c.Recorded cfg := by
  unfold handleConnection Connection.Recorded
  cases receive c.stream c.sizes with
  | tooLarge => exact iff_of_false (not_told_none rfl) fun ⟨_, h, _⟩ => nomatch h
  | got s =>
    rw [handleRequest_told]
    constructor
    · exact fun h => ⟨s, rfl, h⟩
    · rintro ⟨_, ⟨⟩, h⟩
      exact h

/-! ## Runs -/

theorem metricsRecordRequest_counts (m : MetricsState) (status : Nat) :
    (metricsRecordRequest m status).requests2xx = m.requests2xx + (is2xx status).toNat ∧
      (metricsRecordRequest m status).requests4xx = m.requests4xx + (is4xx status).toNat ∧
      (metricsRecordRequest m status).requests5xx = m.requests5xx + (is5xx status).toNat := by
  unfold metricsRecordRequest is2xx is4xx is5xx
  dsimp only
  split
  · next h =>
    have h4 : ¬ (400 ≤ status ∧ status < 500) := by omega
    have h5 : ¬ 500 ≤ status := by omega
    simp [h, h4, h5]
  · split
    · next h2 h4 =>
      have h5 : ¬ 500 ≤ status := by omega
      simp [h2, h4, h5]
    · split
      · next h2 h4 h5 => simp [h2, h4, h5]
      · next h2 h4 h5 => simp [h2, h4, h5]

theorem recorded_counts (m : MetricsState) (r : Option Nat) :
    (r.elim m (metricsRecordRequest m)).requests2xx = m.requests2xx + (r.elim false is2xx).toNat ∧
      (r.elim m (metricsRecordRequest m)).requests4xx = m.requests4xx + (r.elim false is4xx).toNat ∧
      (r.elim m (metricsRecordRequest m)).requests5xx = m.requests5xx + (r.elim false is5xx).toNat := by
  cases r with
  | none => exact ⟨rfl, rfl, rfl⟩
  | some status => exact metricsRecordRequest_counts m status

theorem countP_snoc (p : Nat → Bool) (sent : List Nat) (status : Nat) :
    (sent ++ [status]).countP p = sent.countP p + (p status).toNat := by
  rw [List.countP_append, List.countP_singleton]
  cases p status <;> rfl

theorem toNat_inj {a b : Bool} : a.toNat = b.toNat ↔ a = b := by cases a <;> cases b <;> decide

/-- Counters that agree do so after a connection exactly if it is recorded in the class of its response. -/
theorem agree_serve {s : ServerRun} (h : Agree s) (c : Connection) : Agree (s.serve cfg c) ↔ c.Recorded cfg := by
  rw [← handleConnection_told]
  unfold ServerRun.serve
  generalize handleConnection cfg c.env c.stream c.sizes = r
  obtain ⟨h2, h4, h5⟩ := recorded_counts s.metrics r.recorded
  constructor
  · rintro ⟨ha2, ha4, ha5⟩
    dsimp only at ha2 ha4 ha5
    rw [h2, countP_snoc, h.ok2xx] at ha2
    rw [h4, countP_snoc, h.ok4xx] at ha4
    rw [h5, countP_snoc, h.ok5xx] at ha5
    exact ⟨toNat_inj.1 (Nat.add_left_cancel ha2), toNat_inj.1 (Nat.add_left_cancel ha4),
      toNat_inj.1 (Nat.add_left_cancel ha5)⟩
  · rintro ⟨ht2, ht4, ht5⟩
    refine ⟨?_, ?_, ?_⟩ <;> dsimp only
    · rw [h2, countP_snoc, h.ok2xx, ht2]
    · rw [h4, countP_snoc, h.ok4xx, ht4]
    · rw [h5, countP_snoc, h.ok5xx, ht5]

theorem serverRun_snoc (conns : List Connection) (c : Connection) :
    serverRun cfg (conns ++ [c]) = (serverRun cfg conns).serve cfg c := by
  unfold serverRun
  rw [List.foldl_append]
  rfl

theorem agree_init : Agree (serverRun cfg []) := ⟨rfl, rfl, rfl⟩

variable (cfg)

/-- The counters agree with the responses after each connection of a run exactly if every connection of
it is recorded as it is answered. -/
theorem metrics_agree_iff (conns : List Connection) :
    (∀ k ≤ conns.length, Agree (serverRun cfg (conns.take k))) ↔ ∀ c ∈ conns, c.Recorded cfg := by
  induction conns using List.reverseRecOn with
  | nil => exact iff_of_true (fun k _ => by rw [List.take_nil]; exact agree_init) nofun
  | append_singleton conns c ih =>
    rw [List.forall_mem_append, List.forall_mem_singleton, ← ih]
    constructor
    · intro h
      have hbefore : ∀ k ≤ conns.length, Agree (serverRun cfg (conns.take k)) := by
        intro k hk
        have hagree := h k (by rw [List.length_append]; omega)
        rwa [List.take_append_of_le_length hk] at hagree
      have hlast := h (conns.length + 1) (by rw [List.length_append]; exact Nat.le_refl _)
      rw [List.take_of_length_le (by rw [List.length_append]; exact Nat.le_refl _), serverRun_snoc] at hlast
      have hprev := hbefore conns.length (Nat.le_refl _)
      rw [List.take_length] at hprev
      exact ⟨hbefore, (agree_serve hprev c).1 hlast⟩
    · rintro ⟨hbefore, hc⟩ k hk
      rcases Nat.lt_or_ge conns.length k with hlt | hge
      · have hprev := hbefore conns.length (Nat.le_refl _)
        rw [List.take_length] at hprev
        rw [List.length_append, List.length_singleton] at hk
        rw [List.take_of_length_le (by rw [List.length_append, List.length_singleton]; omega), serverRun_snoc]
        exact (agree_serve hprev c).2 hc
      · rw [List.take_append_of_le_length hge]
        exact hbefore k hge

/-- A chat request whose body is no request is answered with 400 and counted as 2xx. -/
theorem chat_error_counted_as_ok :
    ¬ ∀ (cfg : ServerConfig) (conns : List Connection), ∀ k ≤ conns.length, Agree (serverRun cfg (conns.take k)) := by
  intro h
  have hagree := h plainConfig
    [⟨ascii "POST /v1/chat/completions HTTP/1.1\r\nContent-Length: 2\r\n\r\nno", [1024], quietSurroundings⟩] 1 (Nat.le_refl 1)
  have hcount := hagree.ok2xx
  revert hcount
  decide +kernel

end BitForge.Api
