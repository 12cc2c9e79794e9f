import Minilog.Server.EventLoop

/-! Whether the server goes on receiving.

`safe_handle`: no handler but that of a stop takes away a pending receive, a pending re-arm timer or a queued
handler. So the server is deaf only if the handler that should have armed the next receive threw before it
did. The shutdown waiter keeps the loop running all the same. -/
namespace Minilog.Server
open Lib Lib.Effect
set_option autoImplicit false

/-- The handlers that arm the next receive, or a timer for it. -/
def Handler.arms : Handler → Bool
  | .received (.datagram _) => true
  | .received (.failed (.other _)) => true
  | .rearm false => true
  | _ => false

def Listening (p : Process) : Prop := p.receiving = true ∨ p.rearming = true ∨ ∃ h ∈ p.queue, h.arms = true

instance (p : Process) : Decidable (Listening p) := inferInstanceAs (Decidable (_ ∨ _))

/-- The handlers that belong to a stop. -/
def Handler.stops (h : Handler) : Prop := h = .stopServer ∨ h = .signal

/-! ## What a handler leaves alone -/

structure Undisturbed (p p' : Process) : Prop where
  receiving : p.receiving = true → p'.receiving = true
  rearming : p.rearming = true → p'.rearming = true
  queue : ∀ h ∈ p.queue, h ∈ p'.queue
  stops : ∀ h ∈ p'.queue, h.stops → h ∈ p.queue
  socketOpen : p'.socketOpen = p.socketOpen
  stopRequested : p'.stopRequested = p.stopRequested

theorem Undisturbed.refl (p : Process) : Undisturbed p p := ⟨id, id, fun _ h => h, fun _ h _ => h, rfl, rfl⟩

theorem Undisturbed.trans (p p' p'' : Process) (h : Undisturbed p p') (h' : Undisturbed p' p'') :
    Undisturbed p p'' where
  receiving := h'.receiving ∘ h.receiving
  rearming := h'.rearming ∘ h.rearming
  queue x hx := h'.queue x (h.queue x hx)
  stops x hx hs := h.stops x (h'.stops x hx hs) hs
  socketOpen := h'.socketOpen.trans h.socketOpen
  stopRequested := h'.stopRequested.trans h.stopRequested

abbrev Safe {α : Type} (x : Task α) : Prop := Always Undisturbed x

section Safe

variable (turn : Turn)

theorem safe_pure {α : Type} (a : α) : Safe (pure a : Task α) := always_pure _ Undisturbed.refl a

theorem safe_bind {α β : Type} (x : Task α) (f : α → Task β) (hx : Safe x) (hf : ∀ a, Safe (f a)) :
    Safe (x >>= f) :=
  always_bind _ Undisturbed.trans x f hx hf

theorem safe_get : Safe (Effect.get : Task Process) := always_get _ Undisturbed.refl

theorem safe_modify (f : Process → Process) (h : ∀ p, Undisturbed p (f p)) :
    Safe (Effect.modify f : Task Unit) := h

/-- A change of the rest of the state. -/
theorem safe_rest (f : Process → Process) (h : ∀ p, (f p).queue = p.queue ∧ (f p).receiving = p.receiving ∧
    (f p).rearming = p.rearming ∧ (f p).socketOpen = p.socketOpen ∧ (f p).stopRequested = p.stopRequested) :
    Safe (Effect.modify f : Task Unit) := by
  apply safe_modify
  intro p
  obtain ⟨hq, hr, ha, ho, hs⟩ := h p
  refine ⟨fun h => hr.trans h, fun h => ha.trans h, fun x hx => ?_, fun x hx _ => ?_, ho, hs⟩
  · rw [hq]
    exact hx
  · rw [hq] at hx
    exact hx

theorem safe_ite {α : Type} (c : Prop) [Decidable c] (x y : Task α) (hx : Safe x) (hy : Safe y) :
    Safe (if c then x else y) := by
  split
  · exact hx
  · exact hy

theorem safe_attemptAt (s : Statement) : Safe (attemptAt turn s) :=
  safe_ite _ _ _ (always_raise _ Undisturbed.refl ()) (safe_pure ())

theorem safe_post (h : Handler) (hh : ¬ h.stops) : Safe (post h) := by
  apply safe_modify
  intro p
  refine ⟨id, id, fun x hx => List.mem_append_left _ hx, fun x hx hs => ?_, rfl, rfl⟩
  cases List.mem_append.mp hx with
  | inl hold => exact hold
  | inr hnew =>
    rw [List.mem_singleton.mp hnew] at hs
    exact absurd hs hh

theorem safe_postEach (s : ℕ → Statement) (h : ℕ → Handler) (hh : ∀ sink, ¬ (h sink).stops) (sinks : List ℕ) :
    Safe (postEach turn s h sinks) := by
  induction sinks with
  | nil => exact safe_pure ()
  | cons sink sinks ih =>
    exact safe_bind _ _ (safe_attemptAt turn _) fun _ => safe_bind _ _ (safe_post _ (hh sink)) fun _ => ih

theorem safe_log (s : Statement) (line : Bytes) : Safe (log turn s line) :=
  safe_bind _ _ (safe_attemptAt turn s) fun _ => safe_rest _ fun _ => ⟨rfl, rfl, rfl, rfl, rfl⟩

theorem safe_receive : Safe (receive turn) := by
  refine safe_bind _ _ (safe_attemptAt turn _) fun _ => safe_bind _ _ safe_get fun p => safe_ite _ _ _ ?_ ?_
  · exact safe_modify _ fun _ => ⟨fun _ => rfl, id, fun _ h => h, fun _ h _ => h, rfl, rfl⟩
  · exact safe_post _ (by simp [Handler.stops])

theorem safe_reportDrops (force : Bool) : Safe (reportDrops turn force) := by
  refine safe_bind _ _ safe_get fun p => safe_ite _ _ _ (safe_pure ()) ?_
  refine safe_bind _ _ (safe_rest _ fun _ => ⟨rfl, rfl, rfl, rfl, rfl⟩) fun _ => ?_
  refine safe_ite _ _ _ (safe_pure ()) (safe_bind _ _ (safe_attemptAt turn _) fun _ => ?_)
  exact safe_bind _ _ (safe_rest _ fun _ => ⟨rfl, rfl, rfl, rfl, rfl⟩) fun _ => safe_log turn _ _

theorem safe_handleReceiveError (message : Bytes) : Safe (handleReceiveError turn message) := by
  refine safe_bind _ _ safe_get fun p => ?_
  refine safe_bind _ _ (safe_rest _ fun _ => ⟨rfl, rfl, rfl, rfl, rfl⟩) fun _ => ?_
  have hrest : Safe (attemptAt turn .armTimer >>= fun _ => Effect.modify fun p =>
      { p with rearming := true }) :=
    safe_bind _ _ (safe_attemptAt turn _) fun _ =>
      safe_modify _ fun _ => ⟨id, fun _ => rfl, fun _ h => h, fun _ h _ => h, rfl, rfl⟩
  exact safe_ite _ _ _ (safe_bind _ _ (safe_log turn _ _) fun _ => hrest) hrest

theorem safe_onReceive (c : Completion) : Safe (onReceive turn c) := by
  cases c with
  | failed ec =>
    cases ec with
    | operationAborted => exact safe_pure ()
    | badDescriptor => exact safe_pure ()
    | other message => exact safe_handleReceiveError turn message
  | datagram bytes =>
    have hdeliver : ∀ p : Process, Safe (do
        Effect.modify fun p => { p with admission := (p.admission.charge bytes).2 }
        if (p.admission.charge bytes).1 = false then
          reportDrops turn false
          receive turn
        else
          attemptAt turn .token
          attemptAt turn .copyData
          attemptAt turn .copyAddress
          receive turn
          attemptAt turn .post
          post .parse) := by
      intro p
      refine safe_bind _ _ (safe_rest _ fun _ => ⟨rfl, rfl, rfl, rfl, rfl⟩) fun _ => safe_ite _ _ _ ?_ ?_
      · exact safe_bind _ _ (safe_reportDrops turn false) fun _ => safe_receive turn
      · refine safe_bind _ _ (safe_attemptAt turn _) fun _ => safe_bind _ _ (safe_attemptAt turn _) fun _ => ?_
        refine safe_bind _ _ (safe_attemptAt turn _) fun _ => safe_bind _ _ (safe_receive turn) fun _ => ?_
        exact safe_bind _ _ (safe_attemptAt turn _) fun _ => safe_post _ (by simp [Handler.stops])
    refine safe_bind _ _ safe_get fun p => ?_
    refine safe_bind _ _ (safe_rest _ fun _ => ⟨rfl, rfl, rfl, rfl, rfl⟩) fun _ => ?_
    exact safe_ite _ _ _ (safe_bind _ _ (safe_log turn _ _) fun _ => hdeliver p) (hdeliver p)

theorem safe_scheduleResolveRetry : Safe (scheduleResolveRetry turn) := by
  refine safe_bind _ _ safe_get fun p => safe_ite _ _ _ (safe_pure ())
    (safe_bind _ _ (safe_attemptAt turn _) fun _ => ?_)
  exact safe_rest _ fun _ => ⟨rfl, rfl, rfl, rfl, rfl⟩

/-- A timer that is cancelled leaves its handler in the queue. -/
theorem undisturbed_cancel (p : Process) (h : Handler) (hh : ¬ h.stops) (sinkTimers : List ℕ)
    (resolveTimer stopping : Bool) :
    Undisturbed p { p with
      sinkTimers := sinkTimers, resolveTimer := resolveTimer, forwarderStopping := stopping, queue :=
      p.queue ++ [h] } := by
  refine ⟨id, id, fun x hx => List.mem_append_left _ hx, fun x hx hs => ?_, rfl, rfl⟩
  cases List.mem_append.mp hx with
  | inl hold => exact hold
  | inr hnew =>
    rw [List.mem_singleton.mp hnew] at hs
    exact absurd hs hh

theorem safe_handle (h : Handler) (hh : ¬ h.stops) : Safe (handle turn h) := by
  have hsink : ∀ sink, Safe (sinkHandler turn sink) := by
    intro sink
    apply safe_modify
    intro p
    split
    · exact ⟨id, id, fun _ h => h, fun _ h _ => h, rfl, rfl⟩
    · exact Undisturbed.refl p
  cases h with
  | received c => exact safe_onReceive turn c
  | rearm cancelled => exact safe_ite _ _ _ (safe_pure ()) (safe_receive turn)
  | parse =>
    refine safe_bind _ _ (safe_attemptAt turn _) fun _ => ?_
    refine safe_bind _ _ (safe_postEach turn _ _ (fun sink => by simp [Handler.stops]) _) fun _ => ?_
    refine safe_bind _ _ safe_get fun p => safe_ite _ _ _ ?_ (safe_pure ())
    exact safe_bind _ _ (safe_attemptAt turn _) fun _ => safe_post _ (by simp [Handler.stops])
  | write sink => exact hsink sink
  | reopen sink cancelled => exact safe_ite _ _ _ (safe_pure ()) (hsink sink)
  | closeSink sink =>
    apply safe_modify
    intro p
    split
    · exact undisturbed_cancel p _ (by simp [Handler.stops]) _ _ _
    · exact Undisturbed.refl p
  | forward => exact safe_attemptAt turn _
  | resolved found =>
    refine safe_bind _ _ safe_get fun p => safe_ite _ _ _ (safe_pure ())
      (safe_bind _ _ (safe_attemptAt turn _) fun _ => ?_)
    exact safe_ite _ _ _ (safe_pure ()) (safe_scheduleResolveRetry turn)
  | retryResolve cancelled =>
    refine safe_bind _ _ safe_get fun p => safe_ite _ _ _ (safe_pure ())
      (safe_bind _ _ (safe_attemptAt turn _) fun _ => ?_)
    exact safe_rest _ fun _ => ⟨rfl, rfl, rfl, rfl, rfl⟩
  | stopForwarder =>
    apply safe_modify
    intro p
    cases hr : p.resolveTimer with
    | true => exact undisturbed_cancel p _ (by simp [Handler.stops]) _ _ _
    | false => exact ⟨id, id, fun _ h => h, fun _ h _ => h, rfl, rfl⟩
  | stopServer => exact absurd (.inl rfl) hh
  | signal => exact absurd (.inr rfl) hh

/-! ## Arming the next receive -/

def Armed (p : Process) : Prop := p.receiving = true ∨ p.rearming = true

theorem Undisturbed.armed {p p' : Process} (h : Undisturbed p p') (ha : Armed p) : Armed p' :=
  ha.imp h.receiving h.rearming

/-- The statements up to the one that arms the next receive or the timer. -/
def beforeArming : List Statement :=
  [.recoveryLog, .token, .dropText, .dropLog, .copyData, .copyAddress, .armReceive, .errorLog, .armTimer]

theorem attemptAt_eq (s : Statement) (hs : turn.throws s = false) : attemptAt turn s = pure () := by
  unfold attemptAt
  rw [hs]
  rfl

theorem log_wp (s : Statement) (hs : turn.throws s = false) (line : Bytes) (p : Process)
    (Q : Unit → Process → Prop) (E : Unit → Process → Prop)
    (hQ : Q () { p with osLog := p.osLog ++ [line] }) : wp (log turn s line) Q E p := by
  unfold log
  rw [wp_bind, attemptAt_eq turn s hs]
  exact hQ

variable (hturn : ∀ s ∈ beforeArming, turn.throws s = false)

include hturn

theorem receive_arms (p : Process) (hopen : p.socketOpen = true) (E : Unit → Process → Prop) :
    wp (receive turn) (fun _ p' => Armed p') E p := by
  unfold receive
  rw [attemptAt_eq turn _ (hturn _ (by decide))]
  simp only [wp_bind, wp_pure, wp_get]
  rw [if_pos hopen]
  exact .inl rfl

theorem reportDrops_returns (force : Bool) (p : Process) (E : Unit → Process → Prop) :
    wp (reportDrops turn force) (fun _ p' => p'.socketOpen = p.socketOpen) E p := by
  have hdrop := hturn .dropLog (by decide)
  unfold reportDrops
  rw [attemptAt_eq turn _ (hturn _ (by decide))]
  simp only [wp_bind, wp_get]
  split
  · rfl
  · simp only [wp_bind, wp_modify]
    split
    · rfl
    · simp only [wp_bind, wp_modify, wp_pure]
      exact log_wp turn _ hdrop _ _ _ _ rfl

theorem handleReceiveError_arms (message : Bytes) (p : Process) (E : Unit → Process → Prop) :
    wp (handleReceiveError turn message) (fun _ p' => Armed p') E p := by
  have herror := hturn .errorLog (by decide)
  unfold handleReceiveError
  rw [attemptAt_eq turn _ (hturn _ (by decide))]
  simp only [wp_bind, wp_get, wp_modify]
  split
  · rw [wp_bind]
    exact log_wp turn _ herror _ _ _ _ (.inr rfl)
  · exact .inr rfl

/-- A datagram: everything up to `receive` succeeds, what comes after it no longer matters. -/
theorem datagram_arms (bytes : ℕ) (p : Process) (hopen : p.socketOpen = true) :
    wp (onReceive turn (.datagram bytes)) (fun _ p' => Armed p') (fun _ p' => Armed p') p := by
  have hrecovery := hturn .recoveryLog (by decide)
  have hafter : ∀ p' : Process, Armed p' →
      wp (attemptAt turn .post >>= fun _ => post .parse) (fun _ p'' => Armed p'')
      (fun _ p'' => Armed p'') p' := by
    intro p' ha
    refine wp_of_always _ _ (safe_bind _ _ (safe_attemptAt turn _) fun _ =>
      safe_post _ (by simp [Handler.stops])) p' _ ?_
    intro p'' hp''
    exact hp''.armed ha
  have hdeliver : ∀ q : Process, q.socketOpen = true →
      wp (do
        Effect.modify fun p => { p with admission := (p.admission.charge bytes).2 }
        if (p.admission.charge bytes).1 = false then
          reportDrops turn false
          receive turn
        else
          attemptAt turn .token
          attemptAt turn .copyData
          attemptAt turn .copyAddress
          receive turn
          attemptAt turn .post
          post .parse) (fun _ p' => Armed p') (fun _ p' => Armed p') q := by
    intro q hq
    rw [attemptAt_eq turn .token (hturn _ (by decide)), attemptAt_eq turn .copyData (hturn _ (by decide)),
      attemptAt_eq turn .copyAddress (hturn _ (by decide))]
    simp only [wp_bind, wp_modify]
    split
    · rw [wp_bind]
      refine wp_mono _ _ _ _ _ _ (reportDrops_returns turn hturn false _ fun _ _ => False) ?_
        (fun _ _ h => h.elim)
      intro _ q' hq'
      exact receive_arms turn hturn q' (hq'.trans hq) _
    · simp only [wp_bind, wp_pure]
      refine wp_mono _ _ _ _ _ _ (receive_arms turn hturn
        { q with admission := (q.admission.charge bytes).2 } hq
        fun _ _ => False) ?_ (fun _ _ h => h.elim)
      intro _ q' hq'
      exact hafter q' hq'
  unfold onReceive
  simp only [wp_bind, wp_get, wp_modify]
  split
  · rw [wp_bind]
    exact log_wp turn _ hrecovery _ _ _ _ (hdeliver _ hopen)
  · exact hdeliver { p with backoff := p.backoff.onSuccess.2 } hopen

theorem handle_arms (h : Handler) (harms : h.arms = true) (p : Process) (hopen : p.socketOpen = true) :
    wp (handle turn h) (fun _ p' => Armed p') (fun _ p' => Armed p') p := by
  cases h with
  | received c =>
    cases c with
    | datagram bytes => exact datagram_arms turn hturn bytes p hopen
    | failed ec =>
      cases ec with
      | other message => exact handleReceiveError_arms turn hturn message p _
      | operationAborted => cases harms
      | badDescriptor => cases harms
  | rearm cancelled =>
    cases cancelled with
    | false => exact receive_arms turn hturn p hopen _
    | true => cases harms
  | _ => cases harms

end Safe

/-! ## Runs -/

/-- A handler that should arm the next receive does not throw before it has done so. -/
def ArmsNext (p : Process) (o : Occurrence) : Prop :=
  match o with
  | .runs i turn => ∀ h, p.queue[i]? = some h → h.arms = true → ∀ s ∈ beforeArming, turn.throws s = false
  | _ => True

def AlwaysArms : Process → List Occurrence → Prop
  | _, [] => True
  | p, o :: occurrences => ArmsNext p o ∧ AlwaysArms (next p o) occurrences

/-- Until a stop is requested the socket is open, nothing of a stop is queued, and the server listens. -/
structure Attentive (p : Process) : Prop where
  socketOpen : p.stopRequested = false → p.socketOpen = true
  stops : p.stopRequested = false → ∀ h ∈ p.queue, ¬ h.stops
  listening : p.stopRequested = false → p.returned = false → Listening p

/-- One more handler in the queue, in place of the operation that completed. -/
theorem Attentive.completes {p p' : Process} {h : Handler} (ha : Attentive p)
    (hqueue : p'.queue = p.queue ++ [h]) (hh : ¬ h.stops) (hsocket : p'.socketOpen = p.socketOpen)
    (hstop : p'.stopRequested = p.stopRequested) (hreturned : p'.returned = p.returned)
    (hreceiving : p.receiving = true → p'.receiving = true ∨ (p.stopRequested = false → h.arms = true))
    (hrearming : p.rearming = true → p'.rearming = true ∨ h.arms = true) : Attentive p' := by
  have hmem : h ∈ p'.queue := by rw [hqueue]; exact List.mem_append_right _ List.mem_cons_self
  refine ⟨fun hs => ?_, fun hs x hx => ?_, fun hs hr => ?_⟩
  · rw [hsocket]
    exact ha.socketOpen (hstop ▸ hs)
  · rw [hqueue] at hx
    cases List.mem_append.mp hx with
    | inl hold => exact ha.stops (hstop ▸ hs) x hold
    | inr hnew =>
      rw [List.mem_singleton.mp hnew]
      exact hh
  · have hlisten := ha.listening (hstop ▸ hs) (hreturned ▸ hr)
    cases hlisten with
    | inl h₁ =>
      cases hreceiving h₁ with
      | inl h₂ => exact .inl h₂
      | inr h₂ => exact .inr (.inr ⟨h, hmem, h₂ (hstop ▸ hs)⟩)
    | inr h₁ =>
      cases h₁ with
      | inl h₂ =>
        cases hrearming h₂ with
        | inl h₃ => exact .inr (.inl h₃)
        | inr h₃ => exact .inr (.inr ⟨h, hmem, h₃⟩)
      | inr h₂ =>
        obtain ⟨x, hx, harms⟩ := h₂
        exact .inr (.inr ⟨x, by rw [hqueue]; exact List.mem_append_left _ hx, harms⟩)

/-- A handler runs: it was not the only one to listen, or it arms the next receive. -/
theorem runHandler_attentive (turn : Turn) (i : ℕ) (h : Handler) (p : Process) (hi : p.queue[i]? = some h)
    (ha : Attentive p) (harms : h.arms = true → ∀ s ∈ beforeArming, turn.throws s = false)
    (hreturned : p.returned = false) (hstop : p.stopRequested = false) :
    Attentive (runHandler turn h { p with queue := p.queue.eraseIdx i }) := by
  have hopen := ha.socketOpen hstop
  have hnot : ¬ h.stops := ha.stops hstop h (List.mem_of_getElem? hi)
  have herase : ∀ x ∈ p.queue.eraseIdx i, x ∈ p.queue := fun x hx => List.mem_of_mem_eraseIdx hx
  -- however the handler ends, the process listens
  have hend : wp (handle turn h) (fun _ p' => Undisturbed { p with queue := p.queue.eraseIdx i } p' ∧
      Listening p') (fun _ p' => Undisturbed { p with queue := p.queue.eraseIdx i } p' ∧
        Listening p') { p with queue := p.queue.eraseIdx i } := by
    have hsafe := safe_handle turn h hnot { p with queue := p.queue.eraseIdx i }
    by_cases hh : h.arms = true
    · have harmed := handle_arms turn (harms hh) h hh { p with queue := p.queue.eraseIdx i } hopen
      have hlisten : ∀ p', Armed p' → Listening p' := fun p' hp' => hp'.imp id .inl
      exact wp_mono _ _ _ _ _ _ (wp_and _ _ _ _ _ _ hsafe harmed) (fun _ p' hp' => ⟨hp'.1, hlisten p' hp'.2⟩)
        (fun _ p' hp' => ⟨hp'.1, hlisten p' hp'.2⟩)
    · have hlisten : ∀ p', Undisturbed { p with queue := p.queue.eraseIdx i } p' → Listening p' := by
        intro p' hu
        cases ha.listening hstop hreturned with
        | inl h₁ => exact .inl (hu.receiving h₁)
        | inr h₁ =>
          cases h₁ with
          | inl h₂ => exact .inr (.inl (hu.rearming h₂))
          | inr h₂ =>
            obtain ⟨x, hx, hxa⟩ := h₂
            obtain ⟨j, hj⟩ := List.mem_iff_getElem?.mp hx
            have hne : j ≠ i := by
              intro hji
              rw [hji, hi, Option.some.injEq] at hj
              exact hh (hj ▸ hxa)
            exact .inr (.inr ⟨x, hu.queue x (List.mem_eraseIdx_iff_getElem?.mpr ⟨j, hne, hj⟩), hxa⟩)
      exact wp_mono _ _ _ _ _ _ hsafe (fun _ p' hu => ⟨hu, hlisten p' hu⟩) (fun _ p' hu => ⟨hu, hlisten p' hu⟩)
  have hfinal : ∀ p', Undisturbed { p with queue := p.queue.eraseIdx i } p' → Listening p' → Attentive p' := by
    intro p' hu hl
    refine ⟨fun _ => hu.socketOpen.trans hopen, fun _ x hx hs => ?_, fun _ _ => hl⟩
    exact ha.stops hstop x (herase x (hu.stops x hx hs)) hs
  unfold runHandler
  unfold wp at hend
  cases hrun : handle turn h { p with queue := p.queue.eraseIdx i } with
  | mk r p' =>
    rw [hrun] at hend
    cases r with
    | ok _ => exact hfinal p' hend.1 hend.2
    | error _ =>
      have hp' := hfinal p' hend.1 hend.2
      simp only
      split
      · exact ⟨hp'.socketOpen, hp'.stops, fun _ hr => by cases hr⟩
      · exact ⟨hp'.socketOpen, hp'.stops, fun _ _ => hend.2⟩

/-! ## A stop stays requested -/

section Requested

abbrev KeepsRequest {α : Type} (x : Task α) : Prop := Always (fun p p' => p'.stopRequested = p.stopRequested) x

theorem keepsRequest_bind {α β : Type} (x : Task α) (f : α → Task β) (hx : KeepsRequest x)
    (hf : ∀ a, KeepsRequest (f a)) :
    KeepsRequest (x >>= f) := always_bind _ (fun _ _ _ h h' => h'.trans h) x f hx hf

theorem keepsRequest_ite {α : Type} (c : Prop) [Decidable c] (x y : Task α) (hx : KeepsRequest x)
    (hy : KeepsRequest y) :
    KeepsRequest (if c then x else y) := by
  split
  · exact hx
  · exact hy

theorem Safe.keepsRequest {α : Type} (x : Task α) (h : Safe x) : KeepsRequest x :=
  fun p => wp_of_always _ x h p _ fun _ hu => hu.stopRequested

theorem keepsRequest_post (h : Handler) : KeepsRequest (post h) := fun _ => rfl

theorem keepsRequest_postEach (turn : Turn) (s : ℕ → Statement) (h : ℕ → Handler) (sinks : List ℕ) :
    KeepsRequest (postEach turn s h sinks) := by
  induction sinks with
  | nil => exact (safe_pure ()).keepsRequest
  | cons sink sinks ih =>
    exact keepsRequest_bind _ _ (safe_attemptAt turn _).keepsRequest fun _ =>
      keepsRequest_bind _ _ (keepsRequest_post _) fun _ => ih

theorem keepsRequest_stopServer (turn : Turn) : KeepsRequest (stopServer turn) := by
  have hreport := (safe_reportDrops turn true).keepsRequest
  have hrearm : ∀ p : Process, KeepsRequest (do
      if p.rearming then
        Effect.modify fun p => { p with rearming := false }
        post (.rearm true)
      reportDrops turn true) := by
    intro p
    refine keepsRequest_ite _ _ _ (keepsRequest_bind _ _ (fun _ => rfl) fun _ => ?_) hreport
    exact keepsRequest_bind _ _ (keepsRequest_post _) fun _ => hreport
  refine keepsRequest_bind _ _ safe_get.keepsRequest fun p => keepsRequest_bind _ _ (fun _ => rfl) fun _ => ?_
  refine keepsRequest_ite _ _ _ (keepsRequest_bind _ _ (fun _ => rfl) fun _ => ?_) (hrearm p)
  exact keepsRequest_bind _ _ (keepsRequest_post _) fun _ => hrearm p

theorem keepsRequest_onStop (turn : Turn) : KeepsRequest (onStop turn) := by
  refine keepsRequest_bind _ _ (safe_attemptAt turn _).keepsRequest fun _ => ?_
  refine keepsRequest_bind _ _ (keepsRequest_post _) fun _ =>
    keepsRequest_bind _ _ safe_get.keepsRequest fun p => ?_
  refine keepsRequest_bind _ _ (keepsRequest_postEach turn _ _ _) fun _ => ?_
  refine keepsRequest_ite _ _ _ ?_ (safe_pure ()).keepsRequest
  exact keepsRequest_bind _ _ (safe_attemptAt turn _).keepsRequest fun _ => keepsRequest_post _

theorem keepsRequest_handle (turn : Turn) (h : Handler) : KeepsRequest (handle turn h) := by
  by_cases hh : h.stops
  · cases hh with
    | inl hstop =>
      rw [hstop]
      exact keepsRequest_stopServer turn
    | inr hsignal =>
      rw [hsignal]
      exact keepsRequest_onStop turn
  · exact (safe_handle turn h hh).keepsRequest

theorem stopRequested_runHandler (turn : Turn) (h : Handler) (p : Process) :
    (runHandler turn h p).stopRequested = p.stopRequested := by
  have hkeeps := keepsRequest_handle turn h p
  unfold wp at hkeeps
  unfold runHandler
  cases hrun : handle turn h p with
  | mk r p' =>
    rw [hrun] at hkeeps
    cases r with
    | ok _ => exact hkeeps
    | error _ =>
      simp only
      split
      · exact hkeeps
      · exact hkeeps

end Requested

/-! ## Every occurrence -/

theorem attentive_of_stopRequested (p : Process) (h : p.stopRequested = true) : Attentive p := by
  have hfalse : p.stopRequested ≠ false := by
    rw [h]
    decide
  exact ⟨fun hs => absurd hs hfalse, fun hs => absurd hs hfalse, fun hs => absurd hs hfalse⟩

/-- One occurrence, before the loop looks for work. -/
theorem occur_attentive (p : Process) (o : Occurrence) (ha : Attentive p) (ho : ArmsNext p o)
    (hreturned : p.returned = false) :
    Attentive (occur p o) := by
  cases o with
  | received c =>
    simp only [occur]
    split
    case isTrue h =>
      obtain ⟨-, hc⟩ := Bool.and_eq_true_iff.mp h
      refine ha.completes rfl (by simp [Handler.stops]) rfl rfl rfl (fun _ => .inr fun hs => ?_) .inl
      -- an open socket does not abort its receive
      rw [ha.socketOpen hs] at hc
      cases c with
      | datagram bytes => rfl
      | failed ec =>
        cases ec with
        | other message => rfl
        | operationAborted => cases hc
        | badDescriptor => cases hc
    case isFalse => exact ha
  | rearmExpired =>
    simp only [occur]
    split
    · exact ha.completes rfl (by simp [Handler.stops]) rfl rfl rfl .inl (fun _ => .inr rfl)
    · exact ha
  | sinkTimerExpired sink =>
    simp only [occur]
    split
    · exact ha.completes rfl (by simp [Handler.stops]) rfl rfl rfl .inl .inl
    · exact ha
  | lookedUp found =>
    simp only [occur]
    split
    · exact ha.completes rfl (by simp [Handler.stops]) rfl rfl rfl .inl .inl
    · exact ha
  | resolveTimerExpired =>
    simp only [occur]
    split
    · exact ha.completes rfl (by simp [Handler.stops]) rfl rfl rfl .inl .inl
    · exact ha
  | signalled =>
    simp only [occur]
    split
    · exact attentive_of_stopRequested _ rfl
    · split
      · exact attentive_of_stopRequested _ rfl
      · exact ha
  | released bytes => exact ⟨ha.socketOpen, ha.stops, ha.listening⟩
  | runs i turn =>
    simp only [occur]
    cases hi : p.queue[i]? with
    | none => exact ha
    | some h =>
      by_cases hs : p.stopRequested = true
      · exact attentive_of_stopRequested _ ((stopRequested_runHandler turn h _).trans hs)
      · exact runHandler_attentive turn i h p hi ha (ho h hi) hreturned (by simpa using hs)

theorem next_attentive (p : Process) (o : Occurrence) (ha : Attentive p) (ho : ArmsNext p o) :
    Attentive (next p o) := by
  unfold next
  split
  case isTrue => exact ha
  case isFalse hr =>
    have hoccur := occur_attentive p o ha ho (by simpa using hr)
    simp only
    split
    · exact hoccur
    · exact ⟨hoccur.socketOpen, hoccur.stops, fun _ h => by cases h⟩

theorem runProcess_attentive (p : Process) (occurrences : List Occurrence) (ha : Attentive p)
    (h : AlwaysArms p occurrences) :
    Attentive (runProcess p occurrences) := by
  induction occurrences generalizing p with
  | nil => exact ha
  | cons o occurrences ih => exact ih (next p o) (next_attentive p o ha h.1) h.2

theorem started_attentive (service lookup forwarding : Bool) (sinkCount budget : ℕ) :
    Attentive (started service lookup forwarding sinkCount budget) :=
  ⟨fun _ => rfl, fun _ _ hh => absurd hh List.not_mem_nil, fun _ _ => .inl rfl⟩

/-- As long as no handler throws before it has armed the next receive, the server listens until it stops. -/
theorem run_listening (service lookup forwarding : Bool) (sinkCount budget : ℕ) (occurrences : List Occurrence)
    (h : AlwaysArms (started service lookup forwarding sinkCount budget) occurrences)
    (hstop : (runProcess (started service lookup forwarding sinkCount budget) occurrences).stopRequested =
      false) (hreturned : (runProcess (started service lookup forwarding sinkCount budget)
        occurrences).returned = false) :
    Listening (runProcess (started service lookup forwarding sinkCount budget) occurrences) :=
  (runProcess_attentive _ occurrences (started_attentive service lookup forwarding sinkCount budget)
    h).listening hstop hreturned

/-- One datagram whose handler throws at `post`, after the next receive has been armed. -/
theorem run_listening_post :
    Listening (runProcess (started false false false 1 1000)
      [.received (.datagram 10), .runs 0 { throws := fun s => s = .post }]) := by
  refine run_listening false false false 1 1000 _ ⟨trivial, fun h hi harms s hs => ?_, trivial⟩ (by decide)
    (by decide)
  simp only [beforeArming, List.mem_cons, List.not_mem_nil, or_false] at hs
  rcases hs with rfl | rfl | rfl | rfl | rfl | rfl | rfl | rfl | rfl <;> decide

/-- The copy of the datagram throws: nothing is left that would receive again, but the shutdown waiter keeps
the loop. -/
theorem run_deaf :
    (runProcess (started false false false 1 1000)
      [.received (.datagram 100), .runs 0 { throws := fun s => s = .copyData }]).stopRequested = false ∧
    (runProcess (started false false false 1 1000)
      [.received (.datagram 100), .runs 0 { throws := fun s => s = .copyData }]).returned = false ∧
    ¬ Listening (runProcess (started false false false 1 1000)
      [.received (.datagram 100), .runs 0 { throws := fun s => s = .copyData }]) := by
  decide +kernel

end Minilog.Server
