/-
Cancellation is exact: whatever the order of generations and requests, a check says that its
generation is cancelled if and only if a request with its public id took effect since it began, and
a request is answered as matched if and only if the generation that it names is running.
-/
import BitForge.Api.Cancel

namespace BitForge.Api

open BitForge.Lib

variable {G : Type} {ids : G → List UInt8}

/-! ## The trace -/

theorem TraceOk.snoc {t : List (CancelEvent G)} {e : CancelEvent G} (h : TraceOk ids t) (he : e.Ok ids t) :
    TraceOk ids (t ++ [e]) := by
  intro before e' after heq
  rcases List.eq_nil_or_concat after with rfl | ⟨after', last, rfl⟩
  · obtain ⟨rfl, hlast⟩ := List.append_inj' heq rfl
    cases hlast
    exact he
  · rw [List.concat_eq_append, ← List.cons_append, ← List.append_assoc] at heq
    obtain ⟨heq', -⟩ := List.append_inj' heq rfl
    exact h before e' after' heq'

theorem cancelledSince_snoc (t : List (CancelEvent G)) (e : CancelEvent G) (g : G) :
    CancelledSince ids (t ++ [e]) g ↔
      CancelledSince ids t g ∨ .began g ∈ t ∧ ∃ body matched, e = .requested body matched ∧ NamesGeneration ids body g := by
  constructor
  · rintro ⟨before, since, body, matched, heq, hmem, hnames⟩
    rcases List.eq_nil_or_concat since with rfl | ⟨since', last, rfl⟩
    · exact absurd hmem List.not_mem_nil
    · rw [List.concat_eq_append, ← List.cons_append, ← List.append_assoc] at heq
      obtain ⟨rfl, hlast⟩ := List.append_inj' heq rfl
      cases hlast
      rw [List.concat_eq_append] at hmem
      rcases List.mem_append.1 hmem with hmem | hmem
      · exact .inl ⟨before, since', body, matched, rfl, hmem, hnames⟩
      · refine .inr ⟨List.mem_append_right _ List.mem_cons_self, body, matched, ?_, hnames⟩
        exact (List.mem_singleton.1 hmem).symm
  · rintro (⟨before, since, body, matched, rfl, hmem, hnames⟩ | ⟨hbegan, body, matched, rfl, hnames⟩)
    · refine ⟨before, since ++ [e], body, matched, by simp, List.mem_append_left _ hmem, hnames⟩
    · obtain ⟨before, since, rfl⟩ := List.append_of_mem hbegan
      exact ⟨before, since ++ [.requested body matched], body, matched, by simp,
        List.mem_append_right _ (List.mem_singleton.2 rfl), hnames⟩

theorem CancelledSince.began {t : List (CancelEvent G)} {g : G} (h : CancelledSince ids t g) : .began g ∈ t := by
  obtain ⟨before, since, body, matched, rfl, -, -⟩ := h
  exact List.mem_append_right _ List.mem_cons_self

theorem running_snoc {t : List (CancelEvent G)} {e : CancelEvent G} {g : G} (hb : e ≠ .began g) (he : e ≠ .ended g) :
    Running (t ++ [e]) g ↔ Running t g := by
  unfold Running
  simp [hb.symm, he.symm]

/-! ## Requests -/

/-- An id cut to 31 characters is a public id of at most 30 only if nothing was cut. -/
theorem extractIdField_names {body id : List UInt8} {g : G} (hlen : (publicId (ids g)).length ≤ 30)
    (h : extractIdField (untilNul body) 32 = some id) : id = publicId (ids g) ↔ NamesGeneration ids body g := by
  unfold NamesGeneration namedId
  unfold extractIdField at h
  obtain ⟨text, htext, hout⟩ := Option.bind_eq_some_iff.1 h
  rw [htext, Option.map_some, Option.some_inj]
  dsimp only at hout
  split at hout
  · cases hout
    constructor
    · intro hid
      have hshort : (text.takeWhile (· ≠ 34)).length ≤ 31 := by
        have hcut := congrArg List.length hid
        rw [List.length_take] at hcut
        omega
      rwa [List.take_of_length_le hshort] at hid
    · intro hid
      rw [hid, List.take_of_length_le (by omega)]
  · cases hout

/-- Public ids that were not cut are as different as the ids. -/
theorem publicId_injective (hinj : Function.Injective ids) (hlen : ∀ g, (publicId (ids g)).length ≤ 30) :
    Function.Injective fun g => publicId (ids g) := by
  have hfull : ∀ g, publicId (ids g) = ascii "chatcmpl-" ++ ids g := by
    intro g
    have hle := hlen g
    unfold publicId at hle ⊢
    rw [List.length_take] at hle
    exact List.take_of_length_le (by omega)
  intro g g' h
  dsimp only at h
  rw [hfull, hfull] at h
  exact hinj (List.append_cancel_left h)

/-! ## The invariant -/

section

variable [DecidableEq G]

/-- At most one generation holds the mutex; the registry holds the one that is running, with what was
asked of it. -/
structure RegistryInv (ids : G → List UInt8) (s : Registry G) : Prop where
  holder : ∀ g, s.stage g = .locked ∨ s.stage g = .generating ∨ s.stage g = .ended → s.generationMutex = some g
  fresh : ∀ g, s.stage g = .waiting ∨ s.stage g = .locked → .began g ∉ s.trace ∧ .ended g ∉ s.trace
  running : ∀ g, Running s.trace g ↔ s.stage g = .generating
  registered : ∀ g, s.stage g = .generating → s.cancel.active = true ∧ s.cancel.id = publicId (ids g) ∧
    (s.cancel.cancelRequested = true ↔ CancelledSince ids s.trace g)
  idle : (∀ g, s.stage g ≠ .generating) → s.cancel.active = false
  traceOk : TraceOk ids s.trace

theorem registryInv_init : RegistryInv ids (registrySystem ids).init where
  holder := by simp [registrySystem]
  fresh := by simp [registrySystem]
  running := by simp [registrySystem, Running]
  registered := by simp [registrySystem]
  idle _ := rfl
  traceOk before e after h := by simp [registrySystem] at h

theorem setStage_stage (s : Registry G) (g : G) (st : Stage) (g' : G) :
    (s.setStage g st).stage g' = if g' = g then st else s.stage g' := by
  unfold Registry.setStage
  simp [Function.update_apply]

/-- Stages other than `generating` change with no effect on the registry. -/
theorem RegistryInv.move {s : Registry G} (h : RegistryInv ids s) {g : G} {st : Stage} {m : Option G}
    (hold : s.stage g ≠ .generating) (hst : st ≠ .generating)
    (hfresh : st = .waiting ∨ st = .locked → s.stage g = .waiting ∨ s.stage g = .locked)
    (hholder : ∀ g', (s.setStage g st).stage g' = .locked ∨ (s.setStage g st).stage g' = .generating ∨
      (s.setStage g st).stage g' = .ended → m = some g') :
    RegistryInv ids { s.setStage g st with generationMutex := m } := by
  have hgen : ∀ g', (s.setStage g st).stage g' = .generating ↔ s.stage g' = .generating := by
    intro g'
    rw [setStage_stage]
    split
    · next heq => simp [heq, hold, hst]
    · rfl
  refine ⟨hholder, fun g' hg' => ?_, fun g' => ?_, fun g' hg' => ?_, fun hidle => ?_, h.traceOk⟩
  · change (s.setStage g st).stage g' = .waiting ∨ (s.setStage g st).stage g' = .locked at hg'
    rw [setStage_stage] at hg'
    split at hg'
    · next heq =>
      subst heq
      exact h.fresh _ (hfresh hg')
    · exact h.fresh g' hg'
  · exact (h.running g').trans (hgen g').symm
  · exact h.registered g' ((hgen g').1 hg')
  · exact h.idle fun g' hg' => hidle g' ((hgen g').2 hg')

theorem registryInv_trylock {s s' : Registry G} {g : G} (h : RegistryInv ids s)
    (hs : registryStep ids s (.trylock g) = some s') : RegistryInv ids s' := by
  unfold registryStep at hs
  dsimp only at hs
  split at hs
  · next hw =>
    split at hs
    · next hm =>
      cases hs
      refine h.move (by simp [hw]) nofun (fun _ => .inl hw) fun g' hg' => ?_
      rw [setStage_stage] at hg'
      split at hg'
      · next heq => rw [heq]
      · have hnone := h.holder g' hg'
        rw [hm] at hnone
        cases hnone
    · next hm =>
      cases hs
      refine h.move (by simp [hw]) nofun (by simp) fun g' hg' => ?_
      rw [setStage_stage] at hg'
      split at hg'
      · simp at hg'
      · exact h.holder g' hg'
  · cases hs

theorem registryInv_unlock {s s' : Registry G} {g : G} (h : RegistryInv ids s)
    (hs : registryStep ids s (.unlock g) = some s') : RegistryInv ids s' := by
  unfold registryStep at hs
  dsimp only at hs
  split at hs
  · next hg =>
    cases hs
    have hmutex : s.generationMutex = some g := h.holder g (hg.imp_right .inr)
    refine h.move (by rcases hg with hg | hg <;> simp [hg]) nofun (by simp) fun g' hg' => ?_
    rw [setStage_stage] at hg'
    split at hg'
    · simp at hg'
    · next hne =>
      -- only the generation that unlocks held the mutex
      have hsame := h.holder g' hg'
      rw [hmutex] at hsame
      exact absurd (Option.some.inj hsame).symm hne
  · cases hs

/-- A generation that begins finds no other one running, and no request of its own. -/
theorem registryInv_begin {s s' : Registry G} {g : G} (hlen : ∀ g, (publicId (ids g)).length ≤ 30)
    (h : RegistryInv ids s) (hs : registryStep ids s (.begin g) = some s') : RegistryInv ids s' := by
  unfold registryStep at hs
  dsimp only at hs
  split at hs
  · next hg =>
    cases hs
    have hmutex : s.generationMutex = some g := h.holder g (.inl hg)
    obtain ⟨hbegan, hended⟩ := h.fresh g (.inr hg)
    have hother : ∀ g', g' ≠ g → s.stage g' ≠ .generating := by
      intro g' hne hg'
      have hsame := h.holder g' (.inr (.inl hg'))
      rw [hmutex] at hsame
      exact hne (Option.some.inj hsame).symm
    refine ⟨fun g' hg' => ?_, fun g' hg' => ?_, fun g' => ?_, fun g' hg' => ?_, fun hidle => ?_, h.traceOk.snoc trivial⟩
    · change (s.setStage g .generating).stage g' = .locked ∨ (s.setStage g .generating).stage g' = .generating ∨
        (s.setStage g .generating).stage g' = .ended at hg'
      rw [setStage_stage] at hg'
      split at hg'
      · next heq =>
        rw [heq]
        exact hmutex
      · exact h.holder g' hg'
    · change (s.setStage g .generating).stage g' = .waiting ∨ (s.setStage g .generating).stage g' = .locked at hg'
      rw [setStage_stage] at hg'
      split at hg'
      · simp at hg'
      · next hne =>
        obtain ⟨hb, he⟩ := h.fresh g' hg'
        exact ⟨by simp [Registry.log, Registry.setStage, hb, hne], by simp [Registry.log, Registry.setStage, he]⟩
    · change Running (s.trace ++ [.began g]) g' ↔ (s.setStage g .generating).stage g' = .generating
      rw [setStage_stage]
      split
      · next heq =>
        subst heq
        simp [Running, hended]
      · next hne => rw [running_snoc (e := .began g) (by simpa using fun heq => hne heq.symm) (by simp), h.running]
    · change (s.setStage g .generating).stage g' = .generating at hg'
      rw [setStage_stage] at hg'
      split at hg'
      · next heq =>
        subst heq
        refine ⟨rfl, List.take_of_length_le (by have := hlen g'; omega), ?_⟩
        change false = true ↔ CancelledSince ids (s.trace ++ [.began g']) g'
        rw [cancelledSince_snoc]
        constructor
        · exact nofun
        · rintro (hc | ⟨hb, -⟩)
          · exact absurd hc.began hbegan
          · exact absurd hb hbegan
      · next hne => exact absurd hg' (hother g' hne)
    · refine absurd (show (s.setStage g .generating).stage g = .generating from ?_) (hidle g)
      rw [setStage_stage, if_pos rfl]
  · cases hs

theorem registryInv_check {s s' : Registry G} {g : G} (h : RegistryInv ids s)
    (hs : registryStep ids s (.check g) = some s') : RegistryInv ids s' := by
  unfold registryStep at hs
  dsimp only at hs
  split at hs
  · next hg =>
    cases hs
    obtain ⟨hactive, hid, hrequested⟩ := h.registered g hg
    have hresult : cancelRegistryCheck s.cancel (publicId (ids g)) = true ↔ CancelledSince ids s.trace g := by
      rw [← hrequested]
      simp [cancelRegistryCheck, hactive, hid]
    refine ⟨h.holder, fun g' hg' => ?_, fun g' => ?_, fun g' hg' => ?_, h.idle,
      h.traceOk.snoc ⟨(h.running g).2 hg, hresult⟩⟩
    · simpa [Registry.log] using h.fresh g' hg'
    · exact (running_snoc (by simp) (by simp)).trans (h.running g')
    · obtain ⟨hactive', hid', hrequested'⟩ := h.registered g' hg'
      refine ⟨hactive', hid', hrequested'.trans ?_⟩
      rw [Registry.log, cancelledSince_snoc]
      simp
  · cases hs

theorem registryInv_finish {s s' : Registry G} {g : G} (h : RegistryInv ids s)
    (hs : registryStep ids s (.finish g) = some s') : RegistryInv ids s' := by
  unfold registryStep at hs
  dsimp only at hs
  split at hs
  · next hg =>
    cases hs
    have hmutex : s.generationMutex = some g := h.holder g (.inr (.inl hg))
    have hother : ∀ g', g' ≠ g → s.stage g' ≠ .generating := by
      intro g' hne hg'
      have hsame := h.holder g' (.inr (.inl hg'))
      rw [hmutex] at hsame
      exact hne (Option.some.inj hsame).symm
    have hstage : ∀ g', (s.setStage g .ended).stage g' ≠ .generating := by
      intro g'
      rw [setStage_stage]
      split
      · exact nofun
      · next hne => exact hother g' hne
    refine ⟨fun g' hg' => ?_, fun g' hg' => ?_, fun g' => ?_, fun g' hg' => absurd hg' (hstage g'), fun _ => rfl,
      h.traceOk.snoc trivial⟩
    · change (s.setStage g .ended).stage g' = .locked ∨ (s.setStage g .ended).stage g' = .generating ∨
        (s.setStage g .ended).stage g' = .ended at hg'
      rw [setStage_stage] at hg'
      split at hg'
      · next heq =>
        rw [heq]
        exact hmutex
      · exact h.holder g' hg'
    · change (s.setStage g .ended).stage g' = .waiting ∨ (s.setStage g .ended).stage g' = .locked at hg'
      rw [setStage_stage] at hg'
      split at hg'
      · simp at hg'
      · next hne =>
        obtain ⟨hb, he⟩ := h.fresh g' hg'
        exact ⟨by simp [Registry.log, Registry.setStage, hb], by simp [Registry.log, Registry.setStage, he, hne]⟩
    · change Running (s.trace ++ [.ended g]) g' ↔ (s.setStage g .ended).stage g' = .generating
      refine ⟨fun hrun => ?_, fun hgen => absurd hgen (hstage g')⟩
      by_cases heq : g' = g
      · subst heq
        exact absurd (List.mem_append_right _ (List.mem_singleton.2 rfl)) hrun.2
      · rw [running_snoc (e := .ended g) (by simp) (by simpa using fun h' => heq h'.symm), h.running] at hrun
        exact absurd hrun (hother g' heq)
  · cases hs

/-- A request is for the running generation exactly if the registry holds the id that it names. -/
theorem registryInv_cancel {s s' : Registry G} {body : List UInt8} (hinj : Function.Injective fun g => publicId (ids g))
    (hlen : ∀ g, (publicId (ids g)).length ≤ 30) (h : RegistryInv ids s)
    (hs : registryStep ids s (.cancel body) = some s') : RegistryInv ids s' := by
  unfold registryStep at hs
  dsimp only at hs
  split at hs
  · cases hs
    exact h
  · next id hid =>
    cases hs
    have hnames : ∀ g, id = publicId (ids g) ↔ NamesGeneration ids body g := fun g => extractIdField_names (hlen g) hid
    by_cases hmatch : s.cancel.active = true ∧ s.cancel.id = id
    · rw [cancelRegistryRequest, if_pos hmatch]
      obtain ⟨g, hg⟩ : ∃ g, s.stage g = .generating := by
        by_contra hnone
        have hidle := h.idle fun g hg => hnone ⟨g, hg⟩
        rw [hmatch.1] at hidle
        cases hidle
      have hids : ∀ g', s.stage g' = .generating → NamesGeneration ids body g' :=
        fun g' hg' => (hnames g').1 (hmatch.2.symm.trans (h.registered g' hg').2.1)
      refine ⟨h.holder, fun g' hg' => ?_, fun g' => ?_, fun g' hg' => ?_, fun hidle => absurd hg (hidle g),
        h.traceOk.snoc ⟨fun _ => ⟨g, hids g hg⟩, fun g' hg' => ?_⟩⟩
      · simpa [Registry.log] using h.fresh g' hg'
      · exact (running_snoc (by simp) (by simp)).trans (h.running g')
      · obtain ⟨-, hid', -⟩ := h.registered g' hg'
        refine ⟨hmatch.1, hid', ?_⟩
        rw [Registry.log, cancelledSince_snoc]
        exact iff_of_true rfl (.inr ⟨((h.running g').2 hg').1, body, true, rfl, hids g' hg'⟩)
      · -- the public ids differ, so the request is for the running generation
        obtain rfl : g' = g := hinj (((hnames g').2 hg').symm.trans ((hnames g).2 (hids g hg)))
        exact iff_of_true rfl ((h.running g').2 hg)
    · rw [cancelRegistryRequest, if_neg hmatch]
      have hids : ∀ g', s.stage g' = .generating → ¬ NamesGeneration ids body g' := by
        intro g' hg' hn
        obtain ⟨hactive, hid', -⟩ := h.registered g' hg'
        exact hmatch ⟨hactive, hid'.trans ((hnames g').2 hn).symm⟩
      refine ⟨h.holder, fun g' hg' => ?_, fun g' => ?_, fun g' hg' => ?_, h.idle,
        h.traceOk.snoc ⟨nofun, fun g' hg' => ?_⟩⟩
      · simpa [Registry.log] using h.fresh g' hg'
      · exact (running_snoc (by simp) (by simp)).trans (h.running g')
      · obtain ⟨hactive, hid', hrequested⟩ := h.registered g' hg'
        refine ⟨hactive, hid', hrequested.trans ?_⟩
        rw [Registry.log, cancelledSince_snoc]
        refine (or_iff_left ?_).symm
        rintro ⟨-, _, _, ⟨⟩, hn⟩
        exact hids g' hg' hn
      · exact iff_of_false nofun fun hrun => hids g' ((h.running g').1 hrun) hg'

theorem registryInv_step {s s' : Registry G} (hinj : Function.Injective fun g => publicId (ids g))
    (hlen : ∀ g, (publicId (ids g)).length ≤ 30) (h : RegistryInv ids s) (a : CancelAction G)
    (hs : registryStep ids s a = some s') : RegistryInv ids s' := by
  cases a with
  | trylock g => exact registryInv_trylock h hs
  | begin g => exact registryInv_begin hlen h hs
  | check g => exact registryInv_check h hs
  | finish g => exact registryInv_finish h hs
  | unlock g => exact registryInv_unlock h hs
  | cancel body => exact registryInv_cancel hinj hlen h hs

/-- In every run each check and each answer to a request is right. -/
theorem cancel_exact (hinj : Function.Injective ids) (hlen : ∀ g, (publicId (ids g)).length ≤ 30) {s : Registry G}
    (h : (registrySystem ids).Reachable s) : TraceOk ids s.trace := by
  refine (h.invariant (I := RegistryInv ids) registryInv_init fun s a s' _ hI hs => ?_).traceOk
  exact registryInv_step (publicId_injective hinj hlen) hlen hI a hs

end

/-- Two generations. -/
def twoIds : Bool → List UInt8
  | true => ascii "6911f3a0-1"
  | false => ascii "6911f3a0-2"

/-- The first generation is cancelled, by a request that comes too early and one in time; the second is not. -/
def cancelRun : List (CancelAction Bool) :=
  [.trylock true, .cancel (ascii "\x7b\"id\":\"chatcmpl-6911f3a0-1\"\x7d"), .begin true,
    .cancel (ascii "\x7b\"id\": \"chatcmpl-6911f3a0-1\"\x7d"), .check true, .finish true, .unlock true,
    .trylock false, .begin false, .check false]

theorem cancel_exact_two : TraceOk twoIds
    [.requested (ascii "\x7b\"id\":\"chatcmpl-6911f3a0-1\"\x7d") false, .began true,
      .requested (ascii "\x7b\"id\": \"chatcmpl-6911f3a0-1\"\x7d") true, .checked true true, .ended true,
      .began false, .checked false false] :=
  have hrun : (registrySystem twoIds).run (registrySystem twoIds).init cancelRun = some ⟨some false, _, _, _⟩ := rfl
  @cancel_exact Bool twoIds _ (by decide) (by decide) _ (System.Reachable.run .init hrun)

end BitForge.Api
