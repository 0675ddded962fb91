-- SUMMARY: No lost wake-ups: a task that waits is seen by the receiving thread, and every task is executed or cancelled once and in order.
import Emscripten.Pthread.MailboxShutdown

/-!
# Notifications of task queues

The notification of a queue is set by its senders and cleared by the receiving thread without
the queue's lock, and so is that of the mailbox. What makes this work are two facts for each
of them: where something waits, somebody will still look or the notification is pending; and
where it is pending, the message is under way.
-/

namespace Pthread

open Machine ThreadPool

/-- A sender that has enqueued and has yet to notify. -/
def SenderPc.acts {Q α : Type} : SenderPc Q α → Bool
  | .exchange _ => true
  | .mailboxEnqueue _ => true
  | .mailboxExchange => true
  | .post => true
  | _ => false

def BatchPc.awake : BatchPc → Bool
  | .finish => false
  | _ => true

/-- A batch that was started by a notification and looks at its queue again. -/
def Frame.awake {Q : Type} : Frame Q → Bool
  | .mailbox pc => pc.awake
  | .notified _ pc => pc.awake
  | .direct _ => false

namespace MailboxState

variable {S Q α : Type}

/-! ## The property -/

/-- The thread is committed to looking at the queue. -/
def Committed (s : MailboxState S Q α) (q : Q) : Prop :=
  ∃ pc : BatchPc, .notified q pc ∈ s.stack ∧ pc.awake = true

/-- The thread is committed to looking at its mailbox. -/
def MailboxCommitted (s : MailboxState S Q α) : Prop :=
  ∃ pc : BatchPc, .mailbox pc ∈ s.stack ∧ pc.awake = true

/-- The event of a pending notification of the mailbox is under way, or a sender is about to
send it. -/
def EventUnderWay (s : MailboxState S Q α) : Prop :=
  0 < s.events ∨ (∃ i, s.sender i = .post) ∨ .mailbox .start ∈ s.stack

/-- A message in the mailbox is under way: the thread looks at the mailbox, or is notified of
it, or a sender is about to notify it. -/
def MailboxUnderWay (s : MailboxState S Q α) : Prop :=
  s.MailboxCommitted ∨ (∃ i, s.sender i = .mailboxExchange) ∨
    s.mailbox.notification = .pending ∧ s.EventUnderWay

/-- The message of a queue is under way. A thread that exits cancels it. -/
def MessageUnderWay (s : MailboxState S Q α) (q : Q) : Prop :=
  (∃ i, s.sender i = .mailboxEnqueue q) ∨
    q ∈ s.mailbox.tasks ∧ (s.phase = .running → s.MailboxUnderWay)

/-- No sender, no batch and no shutdown can take a step, and no event is under way. -/
def Settled [DecidableEq S] [DecidableEq Q] (s : MailboxState S Q α) : Prop :=
  (∀ i fails, s.step (.sender i fails) = none) ∧ s.step .event = none ∧
    s.step .receiver = none ∧ s.step .shutdown = none

structure QueuesSound [DecidableEq S] [DecidableEq Q] (s : MailboxState S Q α) : Prop where
  wake : ∀ q, (s.queue q).tasks ≠ [] → ¬ s.Committed q → (∃ i, s.sender i = .exchange q) ∨
    (s.queue q).notification = .pending ∧ s.MessageUnderWay q
  /-- The tasks that were sent are those that are done, each once and in order, and those
  that wait. -/
  order : ∀ q, (s.queue q).Logged
  /-- Nothing waits where nothing can happen any more. -/
  settled : s.Settled → ∀ q, (s.queue q).tasks = []
  destroyed : ∀ zombie, s.phase = .destroyed zombie → ∀ q, (s.queue q).tasks = []

/-- The thread does not exit from within a task that was started by a notification. -/
def Permits (s : MailboxState S Q α) : MailboxAction S Q α → Prop
  | .exit => ∀ f ∈ s.stack, ∃ q, f = .direct q
  | _ => True

/-! ## The invariant -/

structure Wakes (s : MailboxState S Q α) : Prop where
  queue : ∀ q, (s.queue q).tasks ≠ [] → s.Committed q ∨ (∃ i, s.sender i = .exchange q) ∨
    (s.queue q).notification = .pending
  pending : ∀ q, (s.queue q).notification = .pending → q ∈ s.mailbox.tasks ∨
    (∃ i, s.sender i = .mailboxEnqueue q) ∨ .notified q .start ∈ s.stack ∨
    s.phase = .cancelling (some q)
  mailbox : s.phase = .running → s.mailbox.tasks ≠ [] → s.MailboxCommitted ∨
    (∃ i, s.sender i = .mailboxExchange) ∨ s.mailbox.notification = .pending
  events : s.phase = .running → s.mailbox.notification = .pending → s.EventUnderWay
  cancelled : ∀ q, s.phase = .cancelling (some q) → (s.queue q).tasks = []

theorem init_wakes : (init (S := S) (Q := Q) (α := α)).Wakes where
  queue _ h := absurd rfl h
  pending _ h := (by cases h)
  mailbox _ h := absurd rfl h
  events _ h := (by cases h)
  cancelled _ h := (by cases h)

/-- A step that takes nothing away that somebody waits for. -/
structure Keeps (s s' : MailboxState S Q α) : Prop where
  notification : ∀ q, (s'.queue q).notification = (s.queue q).notification
  tasks : ∀ q, (s.queue q).tasks = [] → (s'.queue q).tasks = []
  mailbox : s'.mailbox = s.mailbox
  events : s.events ≤ s'.events
  sender : ∀ pc, pc.acts = true → (∃ i, s.sender i = pc) → ∃ i, s'.sender i = pc
  stack : ∀ f ∈ s.stack, f.awake = true → f ∈ s'.stack
  phase : s'.phase = s.phase

section

variable {s s' : MailboxState S Q α}

theorem Keeps.event (hk : Keeps s s') (h : s.EventUnderWay) : s'.EventUnderWay := by
  rcases h with h | h | h
  · exact .inl (Nat.lt_of_lt_of_le h hk.events)
  · exact .inr (.inl (hk.sender _ rfl h))
  · exact .inr (.inr (hk.stack _ h rfl))

theorem Wakes.of_keeps (hi : s.Wakes) (hk : Keeps s s') : s'.Wakes := by
  refine ⟨fun q h => ?_, fun q h => ?_, fun hp h => ?_, fun hp h => ?_, fun q hp => ?_⟩
  · rcases hi.queue q (mt (hk.tasks q) h) with ⟨pc, hf, hpc⟩ | h | h
    · exact .inl ⟨pc, hk.stack _ hf hpc, hpc⟩
    · exact .inr (.inl (hk.sender _ rfl h))
    · exact .inr (.inr ((hk.notification q).trans h))
  · rw [hk.notification] at h
    rw [hk.mailbox, hk.phase]
    rcases hi.pending q h with h | h | h | h
    · exact .inl h
    · exact .inr (.inl (hk.sender _ rfl h))
    · exact .inr (.inr (.inl (hk.stack _ h rfl)))
    · exact .inr (.inr (.inr h))
  · rw [hk.phase] at hp
    rw [hk.mailbox] at h ⊢
    rcases hi.mailbox hp h with ⟨pc, hf, hpc⟩ | h | h
    · exact .inl ⟨pc, hk.stack _ hf hpc, hpc⟩
    · exact .inr (.inl (hk.sender _ rfl h))
    · exact .inr (.inr h)
  · rw [hk.phase] at hp
    rw [hk.mailbox] at h
    exact hk.event (hi.events hp h)
  · rw [hk.phase] at hp
    exact hk.tasks q (hi.cancelled q hp)

end

/-! ## Steps of a sender -/

section

variable [DecidableEq S] [DecidableEq Q] {s s' : MailboxState S Q α} {i : S} {q : Q} {t : α}
  {fails : Bool} {pc pc' : SenderPc Q α}

omit [DecidableEq Q] in
theorem sender_ne {j : S} (hj : s.sender j = pc) (hne : s.sender i ≠ pc) :
    Function.update s.sender i pc' j = pc := by
  rcases eq_or_ne j i with rfl | hji
  · exact absurd hj hne
  · rw [Function.update_of_ne hji]
    exact hj

omit [DecidableEq Q] in
/-- The other senders stay where they are. -/
theorem exists_sender (h : ∃ j, s.sender j = pc) (hne : s.sender i ≠ pc) :
    ∃ j, Function.update s.sender i pc' j = pc := by
  obtain ⟨j, hj⟩ := h
  exact ⟨j, sender_ne hj hne⟩

omit [DecidableEq Q] in
/-- A sender that has nothing left to notify moves on. -/
theorem keeps_setSender (hpc : (s.sender i).acts = false) : Keeps s (s.setSender i pc') where
  notification _ := rfl
  tasks _ := id
  mailbox := rfl
  events := Nat.le_refl _
  sender pc hacts h := exists_sender h fun heq => by rw [heq, hacts] at hpc; cases hpc
  stack _ hf _ := hf
  phase := rfl

omit [DecidableEq S] in
theorem queue_setQueue {x : TaskQueue (S × α)} (q' : Q) :
    (s.setQueue q x).queue q' = if q' = q then x else s.queue q' := Function.update_apply ..

omit [DecidableEq Q] in
/-- A step that takes a sender from `pc` to `pc'`: whatever needs a notification has one, or
has this sender to give it, or had its reason before. -/
theorem Wakes.of_sender (hi : s.Wakes) (hpc : s.sender i = pc)
    (hsender : s'.sender = Function.update s.sender i pc') (hstack : s'.stack = s.stack)
    (hphase : s'.phase = s.phase)
    (hqueue : ∀ q, (s'.queue q).tasks ≠ [] → (s'.queue q).notification = .pending ∨
      pc' = .exchange q ∨ (s.queue q).tasks ≠ [] ∧ pc ≠ .exchange q ∧
        (s.queue q).notification ≠ .pending)
    (hpending : ∀ q, (s'.queue q).notification = .pending → q ∈ s'.mailbox.tasks ∨
      pc' = .mailboxEnqueue q ∨ (s.queue q).notification = .pending ∧ pc ≠ .mailboxEnqueue q ∧
        (q ∈ s.mailbox.tasks → q ∈ s'.mailbox.tasks))
    (hmailbox : s'.mailbox.tasks ≠ [] → s'.mailbox.notification = .pending ∨
      pc' = .mailboxExchange ∨ s.mailbox.tasks ≠ [] ∧ pc ≠ .mailboxExchange ∧
        s.mailbox.notification ≠ .pending)
    (hevent : s'.mailbox.notification = .pending → 0 < s'.events ∨ pc' = .post ∨
      s.mailbox.notification = .pending ∧ pc ≠ .post ∧ s.events ≤ s'.events)
    (hcancelled : ∀ q, s.phase = .cancelling (some q) → (s'.queue q).tasks = []) : s'.Wakes := by
  have hself : s'.sender i = pc' := by rw [hsender, Function.update_self]
  have hother : ∀ x, pc ≠ x → (∃ j, s.sender j = x) → ∃ j, s'.sender j = x := by
    intro x hx h
    rw [hsender]
    exact exists_sender h (by rw [hpc]; exact hx)
  refine ⟨fun q h => ?_, fun q h => ?_, fun hp h => ?_, fun hp h => ?_, fun q hp => ?_⟩
  · rcases hqueue q h with hn | hx | ⟨hold, hne, hn⟩
    · exact .inr (.inr hn)
    · exact .inr (.inl ⟨i, hself.trans hx⟩)
    · rcases hi.queue q hold with ⟨pc, hf, hawake⟩ | hj | hn'
      · exact .inl ⟨pc, by rw [hstack]; exact hf, hawake⟩
      · exact .inr (.inl (hother _ hne hj))
      · exact absurd hn' hn
  · rw [hstack, hphase]
    rcases hpending q h with hm | hx | ⟨hn, hne, hm⟩
    · exact .inl hm
    · exact .inr (.inl ⟨i, hself.trans hx⟩)
    · rcases hi.pending q hn with h | h | h
      · exact .inl (hm h)
      · exact .inr (.inl (hother _ hne h))
      · exact .inr (.inr h)
  · rw [hphase] at hp
    rcases hmailbox h with hn | hx | ⟨hold, hne, hn⟩
    · exact .inr (.inr hn)
    · exact .inr (.inl ⟨i, hself.trans hx⟩)
    · rcases hi.mailbox hp hold with ⟨pc, hf, hawake⟩ | hj | hn'
      · exact .inl ⟨pc, by rw [hstack]; exact hf, hawake⟩
      · exact .inr (.inl (hother _ hne hj))
      · exact absurd hn' hn
  · rw [hphase] at hp
    rcases hevent h with he | hx | ⟨hn, hne, he⟩
    · exact .inl he
    · exact .inr (.inl ⟨i, hself.trans hx⟩)
    · rcases hi.events hp hn with h | h | h
      · exact .inl (Nat.lt_of_lt_of_le h he)
      · exact .inr (.inl (hother _ hne h))
      · exact .inr (.inr (by rw [hstack]; exact h))
  · rw [hphase] at hp
    exact hcancelled q hp

/-! What of this a step does not touch has its reason still. -/

section

variable {x : SenderPc Q α}

omit [DecidableEq S] [DecidableEq Q] in
theorem queue_same (hx : ∀ q, x ≠ .exchange q) (q : Q) (h : (s.queue q).tasks ≠ []) :
    (s.queue q).notification = .pending ∨ pc' = .exchange q ∨ (s.queue q).tasks ≠ [] ∧
      x ≠ .exchange q ∧ (s.queue q).notification ≠ .pending := by
  by_cases hn : (s.queue q).notification = .pending
  · exact .inl hn
  · exact .inr (.inr ⟨h, hx q, hn⟩)

omit [DecidableEq S] [DecidableEq Q] in
theorem mailbox_same (hx : x ≠ .mailboxExchange) (h : s.mailbox.tasks ≠ []) :
    s.mailbox.notification = .pending ∨ pc' = .mailboxExchange ∨ s.mailbox.tasks ≠ [] ∧
      x ≠ .mailboxExchange ∧ s.mailbox.notification ≠ .pending := by
  by_cases hn : s.mailbox.notification = .pending
  · exact .inl hn
  · exact .inr (.inr ⟨h, hx, hn⟩)

end

/-- The task of a sender waits for its exchange. -/
theorem Wakes.enqueue (hi : s.Wakes) (hpc : s.sender i = .enqueue q t)
    (hopen : s.phase.closed = false) : (s.enqueue i q t fails).Wakes := by
  unfold MailboxState.enqueue
  split
  · exact hi.of_keeps (keeps_setSender (by rw [hpc]; rfl))
  · have hqueue : ∀ q', (s.setQueue q ((s.queue q).enqueue (i, t))).queue q' =
        if q' = q then (s.queue q).enqueue (i, t) else s.queue q' := queue_setQueue
    refine hi.of_sender hpc rfl rfl rfl ?_ ?_ ?_ ?_ ?_
    · intro q' h
      change ((s.setQueue q ((s.queue q).enqueue (i, t))).queue q').tasks ≠ [] at h
      change ((s.setQueue q ((s.queue q).enqueue (i, t))).queue q').notification = _ ∨ _
      rw [hqueue] at h ⊢
      split
      · next heq => exact .inr (.inl (by rw [heq]))
      · next hne =>
          rw [if_neg hne] at h
          exact queue_same nofun q' h
    · intro q' h
      change ((s.setQueue q ((s.queue q).enqueue (i, t))).queue q').notification = _ at h
      rw [hqueue] at h
      have hn : (s.queue q').notification = .pending := by
        split at h
        · next heq => exact heq ▸ h
        · exact h
      exact .inr (.inr ⟨hn, nofun, id⟩)
    · exact mailbox_same nofun
    · exact fun h => .inr (.inr ⟨h, nofun, Nat.le_refl _⟩)
    · intro q' hp
      rw [hp] at hopen
      cases hopen

/-- The exchange leaves the notification pending, and the message to whoever set it. -/
theorem Wakes.exchange (hi : s.Wakes) (hpc : s.sender i = .exchange q) : (s.exchange i q).Wakes := by
  have hqueue : ∀ q', (s.setQueue q ((s.queue q).setNotification .pending)).queue q' =
      if q' = q then (s.queue q).setNotification .pending else s.queue q' := queue_setQueue
  have htasks : ∀ q', ((s.setQueue q ((s.queue q).setNotification .pending)).queue q').tasks =
      (s.queue q').tasks := by
    intro q'
    rw [hqueue]
    split
    · next heq => rw [heq]; rfl
    · rfl
  unfold MailboxState.exchange
  refine hi.of_sender hpc rfl rfl rfl ?_ ?_ ?_ ?_ ?_
  · intro q' h
    change ((s.setQueue q ((s.queue q).setNotification .pending)).queue q').tasks ≠ [] at h
    change ((s.setQueue q ((s.queue q).setNotification .pending)).queue q').notification = _ ∨ _
    rw [htasks] at h
    rw [hqueue]
    split
    · exact .inl rfl
    · next hne =>
        by_cases hn : (s.queue q').notification = .pending
        · exact .inl hn
        · exact .inr (.inr ⟨h, fun heq => hne (SenderPc.exchange.inj heq).symm, hn⟩)
  · intro q' h
    change ((s.setQueue q ((s.queue q).setNotification .pending)).queue q').notification = _ at h
    rw [hqueue] at h
    split at h
    · next heq =>
        subst heq
        by_cases hn : (s.queue q').notification = .pending
        · exact .inr (.inr ⟨hn, nofun, id⟩)
        · exact .inr (.inl (if_neg hn))
    · exact .inr (.inr ⟨h, nofun, id⟩)
  · exact mailbox_same nofun
  · exact fun h => .inr (.inr ⟨h, nofun, Nat.le_refl _⟩)
  · intro q' hp
    exact (htasks q').trans (hi.cancelled q' hp)

omit [DecidableEq Q] in
/-- The message is in the mailbox and waits for the mailbox's exchange. -/
theorem Wakes.mailboxEnqueue (hi : s.Wakes) (hpc : s.sender i = .mailboxEnqueue q)
    (h : s.mailboxEnqueue i q fails = some s') : s'.Wakes := by
  unfold MailboxState.mailboxEnqueue at h
  split at h
  · cases h
  · cases h
    refine hi.of_sender hpc rfl rfl rfl (fun q' => queue_same nofun q') ?_ ?_ ?_ hi.cancelled
    · intro q' h
      rcases eq_or_ne q' q with rfl | hne
      · exact .inl (List.mem_append_right _ (List.mem_singleton_self q'))
      · refine .inr (.inr ⟨h, fun heq => hne (SenderPc.mailboxEnqueue.inj heq).symm, fun hm => ?_⟩)
        exact List.mem_append_left _ hm
    · exact fun _ => .inr (.inl rfl)
    · exact fun h => .inr (.inr ⟨h, nofun, Nat.le_refl _⟩)

omit [DecidableEq Q] in
theorem Wakes.mailboxExchange (hi : s.Wakes) (hpc : s.sender i = .mailboxExchange) :
    (s.mailboxExchange i).Wakes := by
  unfold MailboxState.mailboxExchange
  refine hi.of_sender hpc rfl rfl rfl (fun q' => queue_same nofun q') ?_ ?_ ?_ hi.cancelled
  · exact fun q' h => .inr (.inr ⟨h, nofun, id⟩)
  · exact fun _ => .inl rfl
  · intro _
    by_cases hn : s.mailbox.notification = .pending
    · exact .inr (.inr ⟨hn, nofun, Nat.le_refl _⟩)
    · exact .inr (.inl (if_neg hn))

omit [DecidableEq Q] in
theorem Wakes.post (hi : s.Wakes) (hpc : s.sender i = .post) : (s.post i).Wakes := by
  unfold MailboxState.post
  refine hi.of_sender hpc rfl rfl rfl (fun q' => queue_same nofun q') ?_ ?_ ?_ hi.cancelled
  · exact fun q' h => .inr (.inr ⟨h, nofun, id⟩)
  · exact mailbox_same nofun
  · exact fun _ => .inl (Nat.succ_pos _)

omit [DecidableEq Q] in
theorem refCas_keeps {prev : Nat} (hpc : s.sender i = .refCas q t prev) :
    Keeps s (s.refCas i q t prev fails) := by
  unfold refCas
  split
  · have hk : Keeps s (s.setSender i (.enqueue q t)) := keeps_setSender (by rw [hpc]; rfl)
    exact ⟨hk.notification, hk.tasks, hk.mailbox, hk.events, hk.sender, hk.stack, hk.phase⟩
  · exact keeps_setSender (by rw [hpc]; rfl)

omit [DecidableEq Q] in
theorem unref_keeps {ok : Bool} (hpc : s.sender i = .unref ok) : Keeps s (s.unref i ok) := by
  have hk : Keeps s (s.setSender i
      (if s.mailbox_refcount - 1 = 0 then .futexWake ok else .idle)) :=
    keeps_setSender (by rw [hpc]; rfl)
  exact ⟨hk.notification, hk.tasks, hk.mailbox, hk.events, hk.sender, hk.stack, hk.phase⟩

omit [DecidableEq Q] in
theorem Wakes.send (hi : s.Wakes) (h : s.send i q t = some s') : s'.Wakes := by
  unfold MailboxState.send at h
  split at h
  · next hpc =>
      cases h
      exact hi.of_keeps (keeps_setSender (by rw [hpc]; rfl))
  · cases h

theorem Wakes.senderStep (hi : s.Wakes)
    (hopen : (s.sender i).holds = 1 → s.phase.closed = false)
    (h : s.senderStep i fails = some s') : s'.Wakes := by
  unfold MailboxState.senderStep at h
  split at h
  · cases h
  · next hpc =>
      cases h
      exact hi.of_keeps (keeps_setSender (by rw [hpc]; rfl))
  · next hpc =>
      cases h
      exact hi.of_keeps (refCas_keeps hpc)
  · next hpc =>
      cases h
      exact hi.enqueue hpc (hopen (by rw [hpc]; rfl))
  · next hpc =>
      cases h
      exact hi.exchange hpc
  · next hpc => exact hi.mailboxEnqueue hpc h
  · next hpc =>
      cases h
      exact hi.mailboxExchange hpc
  · next hpc =>
      cases h
      exact hi.post hpc
  · next hpc =>
      cases h
      exact hi.of_keeps (unref_keeps hpc)
  · next hpc =>
      cases h
      exact hi.of_keeps (keeps_setSender (by rw [hpc]; rfl))

end

/-! ## Steps of the receiving thread -/

section

variable {s s' : MailboxState S Q α} {q : Q} {f : Frame Q} {rest : List (Frame Q)}

/-- A step of a batch: whatever needs to be looked at is, or has its notification, or had its
reason before. -/
theorem Wakes.of_receiver (hi : s.Wakes) (hsender : s'.sender = s.sender)
    (hevents : s'.events = s.events) (hphase : s'.phase = s.phase)
    (hqueue : ∀ q, (s'.queue q).tasks ≠ [] → s'.Committed q ∨
      (s'.queue q).notification = .pending ∨ (s.queue q).tasks ≠ [] ∧
        (s.queue q).notification ≠ .pending ∧ (s.Committed q → s'.Committed q))
    (hpending : ∀ q, (s'.queue q).notification = .pending → .notified q .start ∈ s'.stack ∨
      (s.queue q).notification = .pending ∧ (q ∈ s.mailbox.tasks → q ∈ s'.mailbox.tasks) ∧
        (.notified q .start ∈ s.stack → .notified q .start ∈ s'.stack))
    (hmailbox : s'.mailbox.tasks ≠ [] → s'.MailboxCommitted ∨
      s'.mailbox.notification = .pending ∨ s.mailbox.tasks ≠ [] ∧
        s.mailbox.notification ≠ .pending ∧ (s.MailboxCommitted → s'.MailboxCommitted))
    (hevent : s'.mailbox.notification = .pending → s.mailbox.notification = .pending ∧
      (.mailbox .start ∈ s.stack → .mailbox .start ∈ s'.stack))
    (hcancelled : ∀ q, (s.queue q).tasks = [] → (s'.queue q).tasks = []) : s'.Wakes := by
  refine ⟨fun q h => ?_, fun q h => ?_, fun hp h => ?_, fun hp h => ?_, fun q hp => ?_⟩
  · rw [hsender]
    rcases hqueue q h with hc | hn | ⟨hold, hn, hc⟩
    · exact .inl hc
    · exact .inr (.inr hn)
    · rcases hi.queue q hold with h | h | h
      · exact .inl (hc h)
      · exact .inr (.inl h)
      · exact absurd h hn
  · rw [hsender, hphase]
    rcases hpending q h with hf | ⟨hn, hm, hf⟩
    · exact .inr (.inr (.inl hf))
    · rcases hi.pending q hn with h | h | h | h
      · exact .inl (hm h)
      · exact .inr (.inl h)
      · exact .inr (.inr (.inl (hf h)))
      · exact .inr (.inr (.inr h))
  · rw [hphase] at hp
    rw [hsender]
    rcases hmailbox h with hc | hn | ⟨hold, hn, hc⟩
    · exact .inl hc
    · exact .inr (.inr hn)
    · rcases hi.mailbox hp hold with h | h | h
      · exact .inl (hc h)
      · exact .inr (.inl h)
      · exact absurd h hn
  · rw [hphase] at hp
    obtain ⟨hn, hf⟩ := hevent h
    rcases hi.events hp hn with h | h | h
    · exact .inl (by rw [hevents]; exact h)
    · exact .inr (.inl (by rw [hsender]; exact h))
    · exact .inr (.inr (hf h))
  · rw [hphase] at hp
    exact hcancelled q (hi.cancelled q hp)

/-- The frames below the innermost one stay. -/
theorem mem_of_rest {g : Frame Q} (hstack : s.stack = f :: rest)
    (hrest : ∀ g ∈ rest, g ∈ s'.stack) (hne : g ≠ f) (hg : g ∈ s.stack) : g ∈ s'.stack := by
  rw [hstack] at hg
  exact hrest g ((List.mem_cons.mp hg).resolve_left hne)

theorem committed_of_rest (hstack : s.stack = f :: rest) (hrest : ∀ g ∈ rest, g ∈ s'.stack)
    (hf : ∀ pc : BatchPc, pc.awake = true → .notified q pc ≠ f) (h : s.Committed q) :
    s'.Committed q := by
  obtain ⟨pc, hmem, hpc⟩ := h
  exact ⟨pc, mem_of_rest hstack hrest (hf pc hpc) hmem, hpc⟩

theorem mailboxCommitted_of_rest (hstack : s.stack = f :: rest)
    (hrest : ∀ g ∈ rest, g ∈ s'.stack) (hf : ∀ pc : BatchPc, pc.awake = true → .mailbox pc ≠ f)
    (h : s.MailboxCommitted) : s'.MailboxCommitted := by
  obtain ⟨pc, hmem, hpc⟩ := h
  exact ⟨pc, mem_of_rest hstack hrest (hf pc hpc) hmem, hpc⟩

/-- The queues a step leaves alone, where their batches stay. -/
theorem queue_kept (hc : s.Committed q → s'.Committed q) (h : (s.queue q).tasks ≠ []) :
    s'.Committed q ∨ (s.queue q).notification = .pending ∨ (s.queue q).tasks ≠ [] ∧
      (s.queue q).notification ≠ .pending ∧ (s.Committed q → s'.Committed q) := by
  by_cases hn : (s.queue q).notification = .pending
  · exact .inr (.inl hn)
  · exact .inr (.inr ⟨h, hn, hc⟩)

/-- The mailbox, where a step leaves it alone and its batch stays. -/
theorem mailbox_kept (hc : s.MailboxCommitted → s'.MailboxCommitted) (h : s.mailbox.tasks ≠ []) :
    s'.MailboxCommitted ∨ s.mailbox.notification = .pending ∨ s.mailbox.tasks ≠ [] ∧
      s.mailbox.notification ≠ .pending ∧ (s.MailboxCommitted → s'.MailboxCommitted) := by
  by_cases hn : s.mailbox.notification = .pending
  · exact .inr (.inl hn)
  · exact .inr (.inr ⟨h, hn, hc⟩)

theorem settle_pending {β : Type} {x : TaskQueue β} :
    x.settle.notification = .pending ↔ x.notification = .pending := by
  unfold TaskQueue.settle
  split
  · next h =>
      rw [h]
      exact ⟨nofun, nofun⟩
  · exact Iff.rfl

theorem settle_tasks {β : Type} {x : TaskQueue β} : x.settle.tasks = x.tasks := by
  unfold TaskQueue.settle
  split
  · rfl
  · rfl

theorem Wakes.mailboxBatch {pc : BatchPc} (hi : s.Wakes) (hstack : s.stack = .mailbox pc :: rest) :
    (s.mailboxBatch rest pc).Wakes := by
  have hcommit : ∀ s' : MailboxState S Q α, (∀ g ∈ rest, g ∈ s'.stack) → ∀ q,
      s.Committed q → s'.Committed q := fun s' hrest q =>
    committed_of_rest hstack hrest nofun
  have hnotified : ∀ s' : MailboxState S Q α, (∀ g ∈ rest, g ∈ s'.stack) → ∀ q,
      .notified q .start ∈ s.stack → .notified q .start ∈ s'.stack := fun s' hrest q =>
    mem_of_rest hstack hrest nofun
  cases pc with
  | start =>
    have hrest : ∀ g ∈ rest, g ∈ (s.mailboxBatch rest .start).stack := fun g hg =>
      List.mem_cons_of_mem _ hg
    refine hi.of_receiver rfl rfl rfl (fun q => queue_kept (hcommit _ hrest q))
      (fun q h => .inr ⟨h, id, hnotified _ hrest q⟩) (fun _ => .inl ?_) nofun fun _ => id
    exact ⟨.loop, List.mem_cons_self, rfl⟩
  | loop =>
    unfold MailboxState.mailboxBatch
    cases ht : s.mailbox.tasks with
    | nil =>
      have hrest : ∀ g ∈ rest, g ∈ .mailbox .finish :: rest := fun g hg =>
        List.mem_cons_of_mem _ hg
      exact hi.of_receiver rfl rfl rfl (fun q => queue_kept (hcommit _ hrest q))
        (fun q h => .inr ⟨h, id, hnotified _ hrest q⟩) (fun h => absurd ht h)
        (fun h => ⟨h, mem_of_rest hstack hrest nofun⟩) fun _ => id
    | cons q qs =>
      have hrest : ∀ g ∈ rest, g ∈ .notified q .start :: .mailbox .loop :: rest := fun g hg =>
        List.mem_cons_of_mem _ (List.mem_cons_of_mem _ hg)
      refine hi.of_receiver rfl rfl rfl (fun q => queue_kept (hcommit _ hrest q)) ?_
        (fun _ => .inl ?_) (fun h => ⟨h, mem_of_rest hstack hrest nofun⟩) fun _ => id
      · intro q' h
        by_cases heq : q' = q
        · subst heq
          exact .inl List.mem_cons_self
        · refine .inr ⟨h, fun hm => ?_, hnotified _ hrest q'⟩
          rw [ht] at hm
          exact (List.mem_cons.mp hm).resolve_left heq
      · exact ⟨.loop, List.mem_cons_of_mem _ List.mem_cons_self, rfl⟩
  | finish =>
    have hrest : ∀ g ∈ rest, g ∈ (s.mailboxBatch rest .finish).stack := fun g hg => hg
    refine hi.of_receiver rfl rfl rfl (fun q => queue_kept (hcommit _ hrest q)) ?_ ?_ ?_
      fun _ => id
    · intro q h
      refine .inr ⟨h, fun hm => ?_, hnotified _ hrest q⟩
      change q ∈ s.mailbox.settle.tasks
      rwa [settle_tasks]
    · intro h
      have hold : s.mailbox.tasks ≠ [] := by
        rw [← settle_tasks]
        exact h
      change _ ∨ s.mailbox.settle.notification = _ ∨ _
      rw [settle_pending]
      refine mailbox_kept (mailboxCommitted_of_rest hstack hrest fun pc hpc heq => ?_) hold
      cases heq
      cases hpc
    · intro h
      exact ⟨settle_pending.mp h, mem_of_rest hstack hrest nofun⟩

end

section

variable [DecidableEq Q] {s s' : MailboxState S Q α} {q : Q} {rest : List (Frame Q)}

theorem tasks_dequeue {t : S × α} {ts : List (S × α)} {o : Outcome} (ht : (s.queue q).tasks = t :: ts)
    (q' : Q) (h : (s.queue q').tasks = []) :
    ((s.setQueue q ((s.queue q).dequeue t ts o)).queue q').tasks = [] := by
  rw [queue_setQueue]
  split
  · next heq =>
      subst heq
      rw [ht] at h
      cases h
  · exact h

/-- A task is dequeued: the notifications and the batches stay. -/
theorem keeps_dequeue {t : S × α} {ts : List (S × α)} {o : Outcome}
    (ht : (s.queue q).tasks = t :: ts) : Keeps s (s.setQueue q ((s.queue q).dequeue t ts o)) where
  notification q' := by
    rw [queue_setQueue]
    split
    · next heq => rw [heq]; rfl
    · rfl
  tasks := tasks_dequeue ht
  mailbox := rfl
  events := Nat.le_refl _
  sender _ _ h := h
  stack _ hf _ := hf
  phase := rfl

theorem Wakes.notifiedBatch {pc : BatchPc} (hi : s.Wakes)
    (hstack : s.stack = .notified q pc :: rest) : (s.notifiedBatch q rest pc).Wakes := by
  have hmailbox : ∀ s' : MailboxState S Q α, (∀ g ∈ rest, g ∈ s'.stack) →
      s.MailboxCommitted → s'.MailboxCommitted := fun s' hrest =>
    mailboxCommitted_of_rest hstack hrest nofun
  have hstart : ∀ s' : MailboxState S Q α, (∀ g ∈ rest, g ∈ s'.stack) →
      .mailbox .start ∈ s.stack → .mailbox .start ∈ s'.stack := fun s' hrest =>
    mem_of_rest hstack hrest nofun
  have hother : ∀ s' : MailboxState S Q α, (∀ g ∈ rest, g ∈ s'.stack) → ∀ q', q' ≠ q →
      s.Committed q' → s'.Committed q' := by
    intro s' hrest q' hne
    refine committed_of_rest hstack hrest fun pc _ heq => hne ?_
    cases heq
    rfl
  cases pc with
  | start =>
    have hrest : ∀ g ∈ rest, g ∈ (s.notifiedBatch q rest .start).stack := fun g hg =>
      List.mem_cons_of_mem _ hg
    have hqueue : ∀ q', (s.notifiedBatch q rest .start).queue q' =
        if q' = q then (s.queue q).setNotification .received else s.queue q' := queue_setQueue
    refine hi.of_receiver rfl rfl rfl (fun q' h => ?_) (fun q' h => ?_)
      (mailbox_kept (hmailbox _ hrest)) (fun h => ⟨h, hstart _ hrest⟩) fun q' h => ?_
    · rw [hqueue] at h ⊢
      split
      · next heq =>
          subst heq
          exact .inl ⟨.loop, List.mem_cons_self, rfl⟩
      · next hne =>
          rw [if_neg hne] at h
          exact queue_kept (hother _ hrest q' hne) h
    · rw [hqueue] at h
      split at h
      · cases h
      · next hne =>
          refine .inr ⟨h, id, mem_of_rest hstack hrest fun heq => hne ?_⟩
          cases heq
          rfl
    · rw [hqueue]
      split
      · next heq =>
          subst heq
          exact h
      · exact h
  | loop =>
    unfold MailboxState.notifiedBatch
    cases ht : (s.queue q).tasks with
    | nil =>
      have hrest : ∀ g ∈ rest, g ∈ .notified q .finish :: rest := fun g hg =>
        List.mem_cons_of_mem _ hg
      refine hi.of_receiver rfl rfl rfl (fun q' h => ?_) (fun q' h => ?_)
        (mailbox_kept (hmailbox _ hrest)) (fun h => ⟨h, hstart _ hrest⟩) fun _ => id
      · rcases eq_or_ne q' q with rfl | hne
        · exact absurd ht h
        · exact queue_kept (hother _ hrest q' hne) h
      · exact .inr ⟨h, id, mem_of_rest hstack hrest nofun⟩
    | cons t ts => exact hi.of_keeps (keeps_dequeue ht)
  | finish =>
    have hrest : ∀ g ∈ rest, g ∈ (s.notifiedBatch q rest .finish).stack := fun g hg => hg
    have hqueue : ∀ q', (s.notifiedBatch q rest .finish).queue q' =
        if q' = q then (s.queue q).settle else s.queue q' := queue_setQueue
    have htasks : ∀ q', ((s.notifiedBatch q rest .finish).queue q').tasks = (s.queue q').tasks := by
      intro q'
      rw [hqueue]
      split
      · next heq => rw [heq, settle_tasks]
      · rfl
    have hpending : ∀ q', ((s.notifiedBatch q rest .finish).queue q').notification = .pending ↔
        (s.queue q').notification = .pending := by
      intro q'
      rw [hqueue]
      split
      · next heq => rw [heq, settle_pending]
      · exact Iff.rfl
    refine hi.of_receiver rfl rfl rfl (fun q' h => ?_) (fun q' h => ?_)
      (mailbox_kept (hmailbox _ hrest)) (fun h => ⟨h, hstart _ hrest⟩) fun q' h => ?_
    · rw [htasks] at h
      rw [hpending]
      refine queue_kept (committed_of_rest hstack hrest fun pc hpc heq => ?_) h
      cases heq
      cases hpc
    · exact .inr ⟨(hpending q').mp h, id, mem_of_rest hstack hrest nofun⟩
    · exact (htasks q').trans h

theorem Wakes.directBatch (hi : s.Wakes) (hstack : s.stack = .direct q :: rest) :
    (s.directBatch q rest).Wakes := by
  unfold MailboxState.directBatch
  split
  · refine hi.of_keeps ⟨fun _ => rfl, fun _ => id, rfl, Nat.le_refl _, fun _ _ => id, ?_, rfl⟩
    intro f hf hawake
    rw [hstack] at hf
    rcases List.mem_cons.mp hf with rfl | hf
    · cases hawake
    · exact hf
  · next ht => exact hi.of_keeps (keeps_dequeue ht)

theorem Wakes.receiver (hi : s.Wakes) (h : s.receiver = some s') : s'.Wakes := by
  unfold MailboxState.receiver at h
  split at h
  · cases h
  · next hstack =>
      cases h
      exact hi.mailboxBatch hstack
  · next hstack =>
      cases h
      exact hi.notifiedBatch hstack
  · next hstack =>
      cases h
      exact hi.directBatch hstack

theorem Wakes.executeQueue (hi : s.Wakes) (h : s.executeQueue q = some s') : s'.Wakes := by
  unfold MailboxState.executeQueue at h
  split at h
  · cases h
    exact hi.of_keeps ⟨fun _ => rfl, fun _ => id, rfl, Nat.le_refl _, fun _ _ => id,
      fun f hf _ => List.mem_cons_of_mem _ hf, rfl⟩
  · cases h

/-- An event that arrives leaves the thread at its mailbox. -/
theorem Wakes.check (hi : s.Wakes) (h : s.check = some s') : s'.Wakes := by
  unfold MailboxState.check at h
  split at h
  · split at h
    · next hnil =>
        cases h
        refine hi.of_keeps ⟨fun _ => rfl, fun _ => id, rfl, Nat.le_refl _, fun _ _ => id, ?_, rfl⟩
        intro f hf
        rw [hnil] at hf
        cases hf
    · cases h
  · cases h
    exact hi

theorem Wakes.event (hi : s.Wakes) (h : s.event = some s') : s'.Wakes := by
  unfold MailboxState.event at h
  split at h
  · cases h
  · unfold MailboxState.check at h
    split at h
    · next hrun =>
        split at h
        · next hnil =>
            have hnil' : s.stack = [] := hnil
            cases h
            refine ⟨fun q hq => ?_, fun q hq => ?_, fun _ hm => ?_, fun _ _ => ?_, hi.cancelled⟩
            · refine (hi.queue q hq).imp_left fun ⟨pc, hf, _⟩ => ?_
              rw [hnil'] at hf
              cases hf
            · refine (hi.pending q hq).imp_right (.imp_right (.imp_left fun hf => ?_))
              rw [hnil'] at hf
              cases hf
            · exact .inl ⟨.start, List.mem_cons_self, rfl⟩
            · exact .inr (.inr List.mem_cons_self)
        · cases h
    · next hrun =>
        cases h
        have hrun' : ¬ s.phase = .running := hrun
        exact ⟨hi.queue, hi.pending, fun hp => absurd hp hrun', fun hp => absurd hp hrun',
          hi.cancelled⟩

/-- A thread that exits leaves no batch that a notification has started. -/
theorem Wakes.exit (hi : s.Wakes) (hc : ∀ f ∈ s.stack, ∃ q, f = .direct q)
    (h : s.exit = some s') : s'.Wakes := by
  have hnot : ∀ (q : Q) (pc : BatchPc), .notified q pc ∉ s.stack := by
    intro q pc hf
    obtain ⟨q', hq'⟩ := hc _ hf
    cases hq'
  unfold MailboxState.exit at h
  split at h
  · next hrun =>
      cases h
      refine ⟨fun q hq => ?_, fun q hq => ?_, nofun, nofun, nofun⟩
      · exact (hi.queue q hq).imp_left fun ⟨pc, hf, _⟩ => absurd hf (hnot q pc)
      · refine (hi.pending q hq).imp_right (.imp_right fun hf => ?_)
        rcases hf with hf | hp
        · exact absurd hf (hnot q _)
        · rw [hrun.1] at hp
          cases hp
  · cases h

/-! ## Shutdown -/

theorem Wakes.cancelMessage (hi : s.Wakes) (hp : s.phase = .cancelling none) :
    s.cancelMessage.Wakes := by
  unfold MailboxState.cancelMessage
  split
  · refine ⟨hi.queue, fun q hq => ?_, nofun, nofun, nofun⟩
    exact (hi.pending q hq).imp_right (.imp_right (.imp_right fun h => by rw [hp] at h; cases h))
  · next q qs ht =>
      have hqueue : ∀ q', (s.setQueue q (s.queue q).cancel).queue q' =
          if q' = q then (s.queue q).cancel else s.queue q' := queue_setQueue
      refine ⟨fun q' hq => ?_, fun q' hq => ?_, nofun, nofun, fun q' h => ?_⟩
      · change ((s.setQueue q (s.queue q).cancel).queue q').tasks ≠ [] at hq
        change _ ∨ _ ∨ ((s.setQueue q (s.queue q).cancel).queue q').notification = _
        rw [hqueue] at hq ⊢
        split at hq
        · exact absurd rfl hq
        · next hne =>
            rw [if_neg hne]
            exact hi.queue q' hq
      · change ((s.setQueue q (s.queue q).cancel).queue q').notification = _ at hq
        rw [hqueue] at hq
        by_cases heq : q' = q
        · exact .inr (.inr (.inr (by rw [heq])))
        · rw [if_neg heq] at hq
          rcases hi.pending q' hq with h | h | h | h
          · rw [ht] at h
            exact .inl ((List.mem_cons.mp h).resolve_left heq)
          · exact .inr (.inl h)
          · exact .inr (.inr (.inl h))
          · rw [hp] at h
            cases h
      · cases h
        change ((s.setQueue q (s.queue q).cancel).queue q).tasks = []
        rw [hqueue, if_pos rfl]
        rfl

theorem Wakes.shutdown (hi : s.Wakes) (h : s.shutdown = some s') : s'.Wakes := by
  have hphase : ∀ p : Phase Q, (∀ q, s.phase ≠ .cancelling (some q)) → p ≠ .running →
      (∀ q, p ≠ .cancelling (some q)) → ∀ n, { s with mailbox_refcount := n, phase := p }.Wakes := by
    intro p hold hrun hnew n
    refine ⟨hi.queue, fun q hq => ?_, fun hp => absurd hp hrun, fun hp => absurd hp hrun,
      fun q hp => absurd hp (hnew q)⟩
    exact (hi.pending q hq).imp_right (.imp_right (.imp_right fun h => absurd h (hold q)))
  unfold MailboxState.shutdown at h
  split at h
  · cases h
  · split at h
    · cases h
    · next hp =>
        cases h
        exact hphase .waiting (by rw [hp]; nofun) nofun nofun _
    · next hp =>
        split at h
        · cases h
          exact hphase (.cancelling none) (by rw [hp]; nofun) nofun nofun s.mailbox_refcount
        · cases h
    · next hp =>
        cases h
        exact hi.cancelMessage hp
    · next q hp =>
        cases h
        have hqueue : ∀ q', (s.setQueue q ((s.queue q).setNotification .none)).queue q' =
            if q' = q then (s.queue q).setNotification .none else s.queue q' := queue_setQueue
        have hnil := hi.cancelled q hp
        refine ⟨fun q' hq => ?_, fun q' hq => ?_, nofun, nofun, nofun⟩
        · change ((s.setQueue q ((s.queue q).setNotification .none)).queue q').tasks ≠ [] at hq
          change _ ∨ _ ∨ ((s.setQueue q ((s.queue q).setNotification .none)).queue q').notification = _
          rw [hqueue] at hq ⊢
          split at hq
          · exact absurd hnil hq
          · next hne =>
              rw [if_neg hne]
              exact hi.queue q' hq
        · change ((s.setQueue q ((s.queue q).setNotification .none)).queue q').notification = _ at hq
          rw [hqueue] at hq
          split at hq
          · cases hq
          · next hne =>
              refine (hi.pending q' hq).imp_right (.imp_right (.imp_right fun h => ?_))
              rw [hp] at h
              cases h
              exact absurd rfl hne
    · next hp =>
        cases h
        exact hphase (.destroyed (s.mailbox.notification ≠ .none)) (by rw [hp]; nofun) nofun nofun
          s.mailbox_refcount
    · cases h

end

/-! ## Where nothing can happen -/

section

variable [DecidableEq S] [DecidableEq Q] {s : MailboxState S Q α} {q : Q}

/-- A sender in a call has a next access. -/
theorem idle_of_settled (h : ∀ i fails, s.step (.sender i fails) = none) (i : S) :
    s.sender i = .idle := by
  have hi : s.senderStep i false = none := h i false
  unfold senderStep at hi
  split at hi
  · assumption
  · cases hi
  · cases hi
  · cases hi
  · cases hi
  · cases hi
  · cases hi
  · cases hi
  · cases hi
  · cases hi

omit [DecidableEq S] in
theorem stack_of_settled (h : s.receiver = none) : s.stack = [] := by
  unfold receiver at h
  split at h
  · assumption
  · cases h
  · cases h
  · cases h

omit [DecidableEq S] in
theorem events_of_settled (h : s.event = none) (hstack : s.stack = []) : s.events = 0 := by
  by_contra hne
  unfold event at h
  rw [if_neg hne] at h
  unfold check at h
  split at h
  · cases h
  · cases h

omit [DecidableEq S] in
/-- A shutdown is stuck only where the thread runs, waits for a reference, or is done. -/
theorem phase_of_settled (h : s.shutdown = none) (hstack : s.stack = []) :
    s.phase = .running ∨ s.phase = .waiting ∧ s.mailbox_refcount ≠ 0 ∨
      ∃ zombie, s.phase = .destroyed zombie := by
  unfold shutdown at h
  rw [if_neg (not_not.mpr hstack)] at h
  split at h
  · next hp => exact .inl hp
  · cases h
  · next hp =>
      split at h
      · cases h
      · next hne => exact .inr (.inl ⟨hp, hne⟩)
  · cases h
  · cases h
  · cases h
  · next zombie hp => exact .inr (.inr ⟨zombie, hp⟩)

end

/-! ## Runs -/

section

variable [Fintype S] [DecidableEq S] [DecidableEq Q] {s s' : MailboxState S Q α} {q : Q}
  {a : MailboxAction S Q α}

theorem Wakes.step (hi : s.Wakes) (hr : s.Refs) (hc : s.Permits a) (hs : s.step a = some s') :
    s'.Wakes := by
  cases a with
  | send i q t => exact hi.send hs
  | sender i fails =>
    refine hi.senderStep (fun hone => Bool.eq_false_iff.mpr fun hclosed => ?_) hs
    rw [hr.no_holder (hr.closed hclosed) i] at hone
    cases hone
  | event => exact hi.event hs
  | checkMailbox => exact hi.check hs
  | receiver => exact hi.receiver hs
  | executeQueue q => exact hi.executeQueue hs
  | exit => exact hi.exit hc hs
  | shutdown => exact hi.shutdown hs

theorem reaches_wakes (h : Reaches step Permits (init (S := S) (Q := Q) (α := α)) s) : s.Wakes :=
  h.invariant_of (J := Wakes) (fun _ hr => reaches_refs hr.any) init_wakes
    fun _ _ _ hr hi hc hs => hi.step hr hc hs

omit [Fintype S] [DecidableEq S] [DecidableEq Q] in
theorem Wakes.wake (hi : s.Wakes) (h : (s.queue q).tasks ≠ []) (hc : ¬ s.Committed q) :
    (∃ i, s.sender i = .exchange q) ∨
      (s.queue q).notification = .pending ∧ s.MessageUnderWay q := by
  rcases hi.queue q h with hcommitted | hexchange | hn
  · exact absurd hcommitted hc
  · exact .inl hexchange
  · refine .inr ⟨hn, ?_⟩
    rcases hi.pending q hn with hm | hsend | hstart | hp
    · refine .inr ⟨hm, fun hrun => ?_⟩
      refine (hi.mailbox hrun (List.ne_nil_of_mem hm)).imp_right (.imp_right fun hn => ?_)
      exact ⟨hn, hi.events hrun hn⟩
    · exact .inl hsend
    · exact absurd ⟨.start, hstart, rfl⟩ hc
    · exact absurd (hi.cancelled q hp) h

omit [DecidableEq S] [DecidableEq Q] in
/-- Nothing is left behind in a mailbox that is destroyed. -/
theorem Wakes.destroyed {zombie : Bool} (hi : s.Wakes) (hr : s.Refs)
    (hp : s.phase = .destroyed zombie) (q : Q) : (s.queue q).tasks = [] := by
  by_contra h
  obtain ⟨-, hempty, hholds, hdirect⟩ := hr.sound.destroyed zombie hp
  have hcommitted : ¬ s.Committed q := by
    rintro ⟨pc, hf, -⟩
    obtain ⟨q', hq'⟩ := hdirect _ hf
    cases hq'
  have hpc : ∀ i (pc : SenderPc Q α), pc.holds = 1 → s.sender i ≠ pc := by
    intro i pc hone heq
    rw [← heq, hholds i] at hone
    cases hone
  rcases hi.wake h hcommitted with ⟨i, hx⟩ | ⟨-, ⟨i, hx⟩ | ⟨hm, -⟩⟩
  · exact hpc i _ rfl hx
  · exact hpc i _ rfl hx
  · rw [hempty] at hm
    cases hm

theorem Wakes.settled (hi : s.Wakes) (hr : s.Refs) (h : s.Settled) (q : Q) :
    (s.queue q).tasks = [] := by
  obtain ⟨hsender, hevent, hreceiver, hshutdown⟩ := h
  have hidle := idle_of_settled hsender
  have hstack := stack_of_settled hreceiver
  have hevents := events_of_settled hevent hstack
  rcases phase_of_settled hshutdown hstack with hp | ⟨hp, hne⟩ | ⟨zombie, hp⟩
  · by_contra htasks
    have hcommitted : ¬ s.Committed q := by
      rintro ⟨pc, hf, -⟩
      rw [hstack] at hf
      cases hf
    have hpc : ∀ i (pc : SenderPc Q α), pc.acts = true → s.sender i ≠ pc := by
      intro i pc hacts heq
      rw [← heq, hidle i] at hacts
      cases hacts
    rcases hi.wake htasks hcommitted with ⟨i, hx⟩ | ⟨-, ⟨i, hx⟩ | ⟨-, hunder⟩⟩
    · exact hpc i _ rfl hx
    · exact hpc i _ rfl hx
    · rcases hunder hp with ⟨pc, hf, -⟩ | ⟨i, hx⟩ | ⟨-, he | ⟨i, hx⟩ | hf⟩
      · rw [hstack] at hf
        cases hf
      · exact hpc i _ rfl hx
      · rw [hevents] at he
        cases he
      · exact hpc i _ rfl hx
      · rw [hstack] at hf
        cases hf
  · have hzero : total SenderPc.holds s.sender = 0 := total_eq_zero fun i => by rw [hidle i]; rfl
    have hcount := hr.count
    rw [hp, hzero] at hcount
    exact absurd hcount hne
  · exact hi.destroyed hr hp q

/-- In every run in which the thread does not exit from a task that a notification has
started, no task is left waiting unseen, and all that were sent are executed or cancelled
once and in order. -/
theorem task_queues_sound (h : Reaches step Permits (init (S := S) (Q := Q) (α := α)) s) :
    s.QueuesSound := by
  have hr := reaches_refs h.any
  have hi := reaches_wakes h
  exact ⟨fun _ htasks hc => hi.wake htasks hc, hr.queue, hi.settled hr, fun _ hp => hi.destroyed hr hp⟩

/-- Two senders send, and the batch of the first notification executes both tasks. -/
theorem task_queues_sound_batch :
    ∃ s : MailboxState Bool Unit Nat, s.QueuesSound ∧
      (s.queue ()).done = [((false, 1), .executed), ((true, 2), .executed)] := by
  have hmeets : Meets step Permits (init (S := Bool) (Q := Unit) (α := Nat)) (.send false () 1 ::
      List.replicate 7 (.sender false false) ++ .send true () 2 :: List.replicate 3 (.sender true false) ++
      .event :: List.replicate 5 .receiver) := meets_of_forall _ fun a ha s => by
    cases a with
    | exit => simp at ha
    | _ => trivial
  exact ⟨_, task_queues_sound (reaches_of_exec _ rfl hmeets), rfl⟩

/-- Between its enqueue and its exchange a sender has given no notification; and a thread
that exits from a task that a notification has started leaves the tasks behind it. -/
theorem exit_drops_tasks :
    (∃ s : MailboxState Bool Unit Nat, Reaches step Any init s ∧ (s.queue ()).tasks = [(false, 1)] ∧
      ¬ s.Committed () ∧ (s.queue ()).notification = .none) ∧
    ∃ s : MailboxState Bool Unit Nat, Reaches step Any init s ∧ s.phase = .destroyed false ∧
      (s.queue ()).tasks = [(true, 2)] := by
  have hsent : Reaches step Any (init (S := Bool) (Q := Unit) (α := Nat)) _ :=
    reaches_of_exec (.send false () 1 :: List.replicate 3 (.sender false false)) rfl (meets_any _)
  refine ⟨⟨_, hsent, rfl, ?_, rfl⟩, ?_⟩
  · rintro ⟨pc, hf, -⟩
    cases hf
  have hexit : Reaches step Any (init (S := Bool) (Q := Unit) (α := Nat)) _ := hsent.trans (reaches_of_exec
    (List.replicate 5 (.sender false false) ++ .send true () 2 :: List.replicate 5 (.sender true false) ++
      .event :: List.replicate 4 .receiver ++ .exit :: List.replicate 4 .shutdown) rfl (meets_any _))
  exact ⟨_, hexit, rfl, rfl⟩

end

end MailboxState

end Pthread
