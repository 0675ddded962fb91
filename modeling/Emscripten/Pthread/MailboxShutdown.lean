-- SUMMARY: The shutdown of a thread's mailbox: its count does not rise from zero, nothing reaches the mailbox after that, and no message is lost.
import Emscripten.Pthread.Mailbox

/-!
# Shutdown of a mailbox

The count of references is the receiving thread's own one and that of every sender between
`emscripten_thread_mailbox_ref` and `emscripten_thread_mailbox_unref`. Once the thread finds
it at zero, nobody is in between and nobody gets there.
-/

namespace Pthread

open Machine ThreadPool

/-! ## What is sent -/

/-- What was dequeued, in order, and what is in the queue make up all that was sent. -/
def TaskQueue.Logged {α : Type} (q : TaskQueue α) : Prop := q.sent = q.done.map Prod.fst ++ q.tasks

namespace TaskQueue

variable {α : Type} {q : TaskQueue α} {t : α} {ts : List α} {o : Outcome} {n : Notification}

theorem Logged.enqueue (h : q.Logged) : (q.enqueue t).Logged := by
  change q.sent ++ [t] = q.done.map Prod.fst ++ (q.tasks ++ [t])
  rw [h, List.append_assoc]

theorem Logged.dequeue (h : q.Logged) (ht : q.tasks = t :: ts) : (q.dequeue t ts o).Logged := by
  change q.sent = (q.done ++ [(t, o)]).map Prod.fst ++ ts
  rw [h, ht, List.map_append, List.append_assoc]
  rfl

theorem Logged.cancel (h : q.Logged) : q.cancel.Logged := by
  change q.sent = (q.done ++ q.tasks.map fun t => (t, Outcome.cancelled)).map Prod.fst ++ []
  rw [h, List.map_append, List.map_map, List.append_nil]
  congr 1
  exact (List.map_id _).symm

theorem Logged.settle (h : q.Logged) : q.settle.Logged := by
  unfold TaskQueue.settle
  split
  · exact h
  · exact h

end TaskQueue

/-! ## References -/

/-- The references a sender holds. -/
def SenderPc.holds {Q α : Type} : SenderPc Q α → Nat
  | .idle => 0
  | .refLoad _ _ => 0
  | .refCas _ _ _ => 0
  | .futexWake _ => 0
  | _ => 1

/-- The reference of the receiving thread. -/
def Phase.holds {Q : Type} : Phase Q → Nat
  | .running => 1
  | .exiting => 1
  | _ => 0

/-- The final cancellation has begun. -/
def Phase.closed {Q : Type} : Phase Q → Bool
  | .running => false
  | .exiting => false
  | .waiting => false
  | _ => true

/-- The final cancellation is over. -/
def Phase.emptied {Q : Type} : Phase Q → Bool
  | .destroying => true
  | .destroyed _ => true
  | _ => false

namespace MailboxState

variable {S Q α : Type}

section

variable [Fintype S] {s s' : MailboxState S Q α} {i : S}

structure Refs (s : MailboxState S Q α) : Prop where
  count : s.mailbox_refcount = s.phase.holds + total SenderPc.holds s.sender
  cas : ∀ i q t prev, s.sender i = .refCas q t prev → prev ≠ 0
  closed : s.phase.closed = true → s.mailbox_refcount = 0
  /-- A thread that exits is in no batch of its mailbox. -/
  frames : s.phase ≠ .running → ∀ f ∈ s.stack, ∃ q, f = .direct q
  mailbox : s.mailbox.Logged
  queue : ∀ q, (s.queue q).Logged
  emptied : s.phase.emptied = true → s.mailbox.tasks = [] ∧ s.mailbox.notification = .none
  freed : s.phase ≠ .destroyed true

theorem init_refs : (init (S := S) (Q := Q) (α := α)).Refs where
  count := by
    have hzero : total SenderPc.holds (fun _ : S => (.idle : SenderPc Q α)) = 0 :=
      total_eq_zero fun _ => rfl
    change 1 = 1 + total SenderPc.holds (fun _ : S => (.idle : SenderPc Q α))
    rw [hzero]
  cas _ _ _ _ h := (by cases h)
  closed h := (by cases h)
  frames h := absurd rfl h
  mailbox := rfl
  queue _ := rfl
  emptied h := (by cases h)
  freed h := (by cases h)

/-- Once the mailbox is closed, no sender holds a reference. -/
theorem Refs.no_holder (hi : s.Refs) (h : s.mailbox_refcount = 0) (i : S) :
    (s.sender i).holds = 0 := by
  have hcount := hi.count
  exact eq_zero_of_total (w := SenderPc.holds) (by omega) i

end

/-! ## Steps of a sender -/

/-- What a step of a sender does to the references and to the mailbox. -/
structure SenderEffect (s s' : MailboxState S Q α) (i : S) : Prop where
  phase : s'.phase = s.phase
  stack : s'.stack = s.stack
  count : s'.mailbox_refcount + (s.sender i).holds = s.mailbox_refcount + (s'.sender i).holds
  others : ∀ j, j ≠ i → s'.sender j = s.sender j
  /-- A reference is taken only where the count is not zero. -/
  rise : s.mailbox_refcount = 0 → s'.mailbox_refcount = 0
  cas : ∀ q t prev, s'.sender i = .refCas q t prev → prev ≠ 0
  mailbox : s.mailbox.Logged → s'.mailbox.Logged
  /-- The mailbox is left alone without a reference. -/
  aside : (s.sender i).holds = 0 → s'.mailbox = s.mailbox
  queue : (∀ q, (s.queue q).Logged) → ∀ q, (s'.queue q).Logged

section

variable [DecidableEq S] {s s' : MailboxState S Q α} {i : S} {q : Q} {t : α}
  {fails : Bool} {pc pc' : SenderPc Q α}

/-- A step that takes a sender from `pc` to `pc'`. -/
theorem SenderEffect.of_move (hpc : s.sender i = pc) (hpc' : s'.sender = Function.update s.sender i pc')
    (hphase : s'.phase = s.phase) (hstack : s'.stack = s.stack)
    (hcount : s'.mailbox_refcount + pc.holds = s.mailbox_refcount + pc'.holds)
    (hrise : s.mailbox_refcount = 0 → s'.mailbox_refcount = 0)
    (hcas : ∀ q t prev, pc' = .refCas q t prev → prev ≠ 0)
    (hmailbox : s.mailbox.Logged → s'.mailbox.Logged)
    (haside : pc.holds = 0 → s'.mailbox = s.mailbox)
    (hqueue : (∀ q, (s.queue q).Logged) → ∀ q, (s'.queue q).Logged) : SenderEffect s s' i := by
  have hself : s'.sender i = pc' := by rw [hpc', Function.update_self]
  refine ⟨hphase, hstack, ?_, fun j hj => ?_, hrise, ?_, hmailbox, ?_, hqueue⟩
  · rw [hpc, hself]
    exact hcount
  · rw [hpc', Function.update_of_ne hj]
  · rw [hself]
    exact hcas
  · rw [hpc]
    exact haside

/-- A step that only takes a sender on. -/
theorem SenderEffect.of_setSender (hpc : s.sender i = pc) (hcount : pc.holds = pc'.holds)
    (hcas : ∀ q t prev, pc' = .refCas q t prev → prev ≠ 0) : SenderEffect s (s.setSender i pc') i :=
  .of_move hpc rfl rfl rfl (by rw [hcount]; rfl) id hcas id (fun _ => rfl) id

theorem refRound_cas {prev_count prev : Nat} {q' : Q} {t' : α}
    (h : refRound q t prev_count = .refCas q' t' prev) : prev ≠ 0 := by
  unfold refRound at h
  split at h
  · cases h
  · next hne =>
      cases h
      exact hne

theorem refRound_holds {prev_count : Nat} : (refRound q t prev_count).holds = 0 := by
  unfold refRound
  split
  · rfl
  · rfl

theorem refCas_effect {prev : Nat} (hpc : s.sender i = .refCas q t prev) (hprev : prev ≠ 0) :
    SenderEffect s (s.refCas i q t prev fails) i := by
  unfold refCas
  split
  · next h =>
      refine .of_move hpc rfl rfl rfl ?_ ?_ nofun id (fun _ => rfl) id
      · change prev + 1 + 0 = s.mailbox_refcount + 1
        rw [h.1]
      · intro hzero
        exact absurd (h.1.symm.trans hzero) hprev
  · exact .of_setSender hpc refRound_holds.symm fun _ _ _ => refRound_cas

theorem mailboxEnqueue_effect (hpc : s.sender i = .mailboxEnqueue q)
    (h : s.mailboxEnqueue i q fails = some s') : SenderEffect s s' i := by
  unfold mailboxEnqueue at h
  split at h
  · cases h
  · cases h
    exact .of_move hpc rfl rfl rfl rfl id nofun .enqueue nofun id

theorem mailboxExchange_effect (hpc : s.sender i = .mailboxExchange) :
    SenderEffect s (s.mailboxExchange i) i := by
  unfold mailboxExchange
  split
  · exact .of_move hpc rfl rfl rfl rfl id nofun id nofun id
  · exact .of_move hpc rfl rfl rfl rfl id nofun id nofun id

theorem unref_effect {ok : Bool} (hpc : s.sender i = .unref ok) (hcount : 0 < s.mailbox_refcount) :
    SenderEffect s (s.unref i ok) i := by
  have hsub : s.mailbox_refcount - 1 + 1 = s.mailbox_refcount := Nat.sub_add_cancel hcount
  have hrise : s.mailbox_refcount = 0 → s.mailbox_refcount - 1 = 0 := fun h => by rw [h]
  unfold unref
  split
  · exact .of_move hpc rfl rfl rfl hsub hrise nofun id nofun id
  · exact .of_move hpc rfl rfl rfl hsub hrise nofun id nofun id

end

section

variable [DecidableEq S] [DecidableEq Q] {s : MailboxState S Q α} {i : S} {q : Q} {t : α}
  {fails : Bool}

omit [DecidableEq S] in
theorem logged_setQueue {x : TaskQueue (S × α)} (h : ∀ q, (s.queue q).Logged) (hx : x.Logged) :
    ∀ q', ((s.setQueue q x).queue q').Logged := by
  intro q'
  change (Function.update s.queue q x q').Logged
  rcases eq_or_ne q' q with rfl | hq
  · rw [Function.update_self]
    exact hx
  · rw [Function.update_of_ne hq]
    exact h q'

theorem enqueue_effect (hpc : s.sender i = .enqueue q t) :
    SenderEffect s (s.enqueue i q t fails) i := by
  unfold enqueue
  split
  · exact .of_setSender hpc rfl nofun
  · refine .of_move hpc rfl rfl rfl rfl id nofun id nofun fun h => ?_
    exact logged_setQueue h (h q).enqueue

theorem exchange_effect (hpc : s.sender i = .exchange q) : SenderEffect s (s.exchange i q) i := by
  unfold exchange
  split
  · exact .of_move hpc rfl rfl rfl rfl id nofun id nofun fun h => logged_setQueue h (h q)
  · exact .of_move hpc rfl rfl rfl rfl id nofun id nofun fun h => logged_setQueue h (h q)

end

variable {rest : List (Frame Q)}

section

variable [Fintype S] [DecidableEq S] [DecidableEq Q] {s s' : MailboxState S Q α} {i : S} {q : Q}
  {t : α} {fails : Bool} {a : MailboxAction S Q α}

omit [DecidableEq S] [DecidableEq Q] in
/-- A sender that gives a reference back holds one. -/
theorem Refs.count_pos (hi : s.Refs) (h : (s.sender i).holds = 1) : 0 < s.mailbox_refcount := by
  rcases Nat.eq_zero_or_pos s.mailbox_refcount with hzero | hpos
  · rw [hi.no_holder hzero i] at h
    cases h
  · exact hpos

theorem Refs.senderStep_effect (hi : s.Refs) (h : s.senderStep i fails = some s') :
    SenderEffect s s' i := by
  unfold senderStep at h
  split at h
  · cases h
  · next hpc =>
      cases h
      exact .of_setSender hpc refRound_holds.symm fun _ _ _ => refRound_cas
  · next q t prev hpc =>
      cases h
      exact refCas_effect hpc (hi.cas i q t prev hpc)
  · next hpc =>
      cases h
      exact enqueue_effect hpc
  · next hpc =>
      cases h
      exact exchange_effect hpc
  · next hpc => exact mailboxEnqueue_effect hpc h
  · next hpc =>
      cases h
      exact mailboxExchange_effect hpc
  · next hpc =>
      cases h
      exact .of_move hpc rfl rfl rfl rfl id nofun id nofun id
  · next hpc =>
      cases h
      exact unref_effect hpc (hi.count_pos (by rw [hpc]; rfl))
  · next hpc =>
      cases h
      exact .of_setSender hpc rfl nofun

omit [Fintype S] [DecidableEq Q] in
theorem send_effect (h : s.send i q t = some s') : SenderEffect s s' i := by
  unfold send at h
  split at h
  · next hpc =>
      cases h
      exact .of_setSender hpc rfl nofun
  · cases h

omit [DecidableEq Q] in
theorem total_holds {f g : S → SenderPc Q α} (h : ∀ j, j ≠ i → g j = f j) :
    total SenderPc.holds g + (f i).holds = total SenderPc.holds f + (g i).holds := by
  have hg : g = Function.update f i (g i) := by
    funext j
    rcases eq_or_ne j i with rfl | hj
    · rw [Function.update_self]
    · rw [Function.update_of_ne hj, h j hj]
  have hu := total_update SenderPc.holds f i (g i)
  rwa [← hg] at hu

omit [DecidableEq Q] in
theorem Refs.of_sender (hi : s.Refs) (he : SenderEffect s s' i) : s'.Refs := by
  have htotal := total_holds he.others
  have hphase := he.phase
  -- a sender reaches the mailbox only while the thread still counts on it
  have hkeep : s.phase.closed = true → s'.mailbox = s.mailbox := fun h =>
    he.aside (hi.no_holder (hi.closed h) i)
  refine ⟨?_, ?_, ?_, ?_, he.mailbox hi.mailbox, he.queue hi.queue, ?_, ?_⟩
  · have hcount := hi.count
    have heff := he.count
    rw [hphase]
    omega
  · intro j q t prev hj
    rcases eq_or_ne j i with rfl | hji
    · exact he.cas q t prev hj
    · exact hi.cas j q t prev ((he.others j hji).symm.trans hj)
  · rw [hphase]
    exact fun h => he.rise (hi.closed h)
  · rw [hphase, he.stack]
    exact hi.frames
  · rw [hphase]
    intro h
    have hclosed : s.phase.closed = true := by
      cases hp : s.phase with
      | destroying => rfl
      | destroyed zombie => rfl
      | _ => rw [hp] at h; cases h
    rw [hkeep hclosed]
    exact hi.emptied h
  · rw [hphase]
    exact hi.freed

/-! ## Steps of the receiving thread -/

omit [DecidableEq S] [DecidableEq Q] in
/-- A step that leaves the count, the senders and the phase alone. -/
theorem Refs.of_receiver (hi : s.Refs) (hcount : s'.mailbox_refcount = s.mailbox_refcount)
    (hsender : s'.sender = s.sender) (hphase : s'.phase = s.phase)
    (hframes : s.phase ≠ .running → ∀ f ∈ s'.stack, ∃ q, f = .direct q)
    (hmailbox : s'.mailbox = s.mailbox ∨ s.phase = .running ∧ s'.mailbox.Logged)
    (hqueue : ∀ q, (s'.queue q).Logged) : s'.Refs := by
  have hlogged : s'.mailbox.Logged := by
    rcases hmailbox with h | h
    · rw [h]
      exact hi.mailbox
    · exact h.2
  refine ⟨?_, hsender ▸ hi.cas, ?_, hphase ▸ hframes, hlogged, hqueue, ?_, hphase ▸ hi.freed⟩
  · rw [hcount, hphase, hsender]
    exact hi.count
  · rw [hphase, hcount]
    exact hi.closed
  · intro h
    rw [hphase] at h
    rcases hmailbox with hsame | hrun
    · rw [hsame]
      exact hi.emptied h
    · rw [hrun.1] at h
      cases h

omit [DecidableEq S] in
theorem Refs.check (hi : s.Refs) (h : s.check = some s') : s'.Refs := by
  unfold MailboxState.check at h
  split at h
  · next hrun =>
      split at h
      · cases h
        exact hi.of_receiver rfl rfl rfl (absurd hrun) (.inl rfl) hi.queue
      · cases h
  · cases h
    exact hi

omit [DecidableEq S] in
theorem Refs.event (hi : s.Refs) (h : s.event = some s') : s'.Refs := by
  unfold MailboxState.event at h
  split at h
  · cases h
  · have hless : { s with events := s.events - 1 }.Refs :=
      hi.of_receiver rfl rfl rfl hi.frames (.inl rfl) hi.queue
    exact hless.check h

omit [DecidableEq S] [DecidableEq Q] in
/-- A thread that is in a batch of its mailbox does not exit. -/
theorem Refs.running_of_frame (hi : s.Refs) {f : Frame Q} (hf : f ∈ s.stack)
    (hd : ∀ q, f ≠ .direct q) : s.phase = .running := by
  by_contra hne
  obtain ⟨q, hq⟩ := hi.frames hne f hf
  exact hd q hq

omit [DecidableEq S] [DecidableEq Q] in
theorem Refs.mailboxBatch {pc : BatchPc} (hi : s.Refs) (hrun : s.phase = .running) :
    (s.mailboxBatch rest pc).Refs := by
  unfold MailboxState.mailboxBatch
  split
  · exact hi.of_receiver rfl rfl rfl (absurd hrun) (.inr ⟨hrun, hi.mailbox⟩) hi.queue
  · split
    · exact hi.of_receiver rfl rfl rfl (absurd hrun) (.inl rfl) hi.queue
    · next ht =>
        exact hi.of_receiver rfl rfl rfl (absurd hrun) (.inr ⟨hrun, hi.mailbox.dequeue ht⟩) hi.queue
  · exact hi.of_receiver rfl rfl rfl (absurd hrun) (.inr ⟨hrun, hi.mailbox.settle⟩) hi.queue

omit [DecidableEq S] in
theorem Refs.notifiedBatch {pc : BatchPc} (hi : s.Refs) (hrun : s.phase = .running) :
    (s.notifiedBatch q rest pc).Refs := by
  unfold MailboxState.notifiedBatch
  split
  · exact hi.of_receiver rfl rfl rfl (absurd hrun) (.inl rfl) (logged_setQueue hi.queue (hi.queue q))
  · split
    · exact hi.of_receiver rfl rfl rfl (absurd hrun) (.inl rfl) hi.queue
    · next ht =>
        refine hi.of_receiver rfl rfl rfl (absurd hrun) (.inl rfl) ?_
        exact logged_setQueue hi.queue ((hi.queue q).dequeue ht)
  · refine hi.of_receiver rfl rfl rfl (absurd hrun) (.inl rfl) ?_
    exact logged_setQueue hi.queue (hi.queue q).settle

omit [DecidableEq S] in
theorem Refs.directBatch (hi : s.Refs) (hstack : s.stack = .direct q :: rest) :
    (s.directBatch q rest).Refs := by
  have hframes : s.phase ≠ .running → ∀ f ∈ rest, ∃ q, f = .direct q := fun h f hf =>
    hi.frames h f (by rw [hstack]; exact List.mem_cons_of_mem _ hf)
  unfold MailboxState.directBatch
  split
  · exact hi.of_receiver rfl rfl rfl hframes (.inl rfl) hi.queue
  · next ht =>
      refine hi.of_receiver rfl rfl rfl hi.frames (.inl rfl) ?_
      exact logged_setQueue hi.queue ((hi.queue q).dequeue ht)

omit [DecidableEq S] in
theorem Refs.receiver (hi : s.Refs) (h : s.receiver = some s') : s'.Refs := by
  unfold MailboxState.receiver at h
  split at h
  · cases h
  · next pc rest hstack =>
      cases h
      refine hi.mailboxBatch (hi.running_of_frame (f := .mailbox pc) ?_ nofun)
      rw [hstack]
      exact List.mem_cons_self
  · next q pc rest hstack =>
      cases h
      refine hi.notifiedBatch (hi.running_of_frame (f := .notified q pc) ?_ nofun)
      rw [hstack]
      exact List.mem_cons_self
  · next hstack =>
      cases h
      exact hi.directBatch hstack

omit [DecidableEq S] in
theorem Refs.executeQueue (hi : s.Refs) (h : s.executeQueue q = some s') : s'.Refs := by
  unfold MailboxState.executeQueue at h
  split at h
  · cases h
    refine hi.of_receiver rfl rfl rfl (fun hne f hf => ?_) (.inl rfl) hi.queue
    rcases List.mem_cons.mp hf with rfl | hf
    · exact ⟨q, rfl⟩
    · exact hi.frames hne f hf
  · cases h

omit [DecidableEq S] in
theorem Refs.exit (hi : s.Refs) (h : s.exit = some s') : s'.Refs := by
  unfold MailboxState.exit at h
  split at h
  · next hc =>
      cases h
      have hcount := hi.count
      rw [hc.1] at hcount
      exact ⟨hcount, hi.cas, nofun, fun _ f hf => (by cases hf), hi.mailbox, hi.queue, nofun, nofun⟩
  · cases h

/-! ## Shutdown -/

omit [DecidableEq S] in
theorem Refs.cancelMessage (hi : s.Refs) (hp : s.phase = .cancelling none) (hstack : s.stack = []) :
    s.cancelMessage.Refs := by
  have hcount := hi.count
  have hzero := hi.closed (by rw [hp]; rfl)
  rw [hp] at hcount
  have hframes : ∀ f ∈ s.stack, ∃ q, f = .direct q := fun f hf => (by rw [hstack] at hf; cases hf)
  unfold MailboxState.cancelMessage
  split
  · next ht =>
      exact ⟨hcount, hi.cas, fun _ => hzero, fun _ => hframes, hi.mailbox, hi.queue,
        fun _ => ⟨ht, rfl⟩, nofun⟩
  · next q qs ht =>
      exact ⟨hcount, hi.cas, fun _ => hzero, fun _ => hframes, hi.mailbox.dequeue ht,
        logged_setQueue hi.queue (hi.queue q).cancel, nofun, nofun⟩

omit [DecidableEq S] in
theorem Refs.shutdown (hi : s.Refs) (h : s.shutdown = some s') : s'.Refs := by
  have hcount := hi.count
  unfold MailboxState.shutdown at h
  split at h
  · cases h
  · next hstack =>
      have hnil := not_not.mp hstack
      have hframes : ∀ f ∈ s.stack, ∃ q, f = .direct q := fun f hf => (by rw [hnil] at hf; cases hf)
      split at h
      · cases h
      · next hp =>
          cases h
          rw [hp] at hcount
          refine ⟨?_, hi.cas, nofun, fun _ => hframes, hi.mailbox, hi.queue, nofun, nofun⟩
          rw [hcount]
          exact Nat.add_sub_cancel_left 1 _ |>.trans (Nat.zero_add _).symm
      · next hp =>
          split at h
          · next hzero =>
              cases h
              rw [hp] at hcount
              exact ⟨hcount, hi.cas, fun _ => hzero, fun _ => hframes, hi.mailbox, hi.queue, nofun,
                nofun⟩
          · cases h
      · next hp =>
          cases h
          exact hi.cancelMessage hp hnil
      · next q hp =>
          cases h
          rw [hp] at hcount
          exact ⟨hcount, hi.cas, fun _ => hi.closed (by rw [hp]; rfl), fun _ => hframes, hi.mailbox,
            logged_setQueue hi.queue (hi.queue q), nofun, nofun⟩
      · next hp =>
          cases h
          rw [hp] at hcount
          have hempty := hi.emptied (by rw [hp]; rfl)
          refine ⟨hcount, hi.cas, fun _ => hi.closed (by rw [hp]; rfl), fun _ => hframes, hi.mailbox,
            hi.queue, fun _ => hempty, fun h => ?_⟩
          have hz : decide (s.mailbox.notification ≠ .none) = true := Phase.destroyed.inj h
          exact of_decide_eq_true hz hempty.2
      · cases h

/-! ## Runs -/

theorem Refs.step (hi : s.Refs) (hs : s.step a = some s') : s'.Refs := by
  cases a with
  | send i q t => exact hi.of_sender (send_effect hs)
  | sender i fails => exact hi.of_sender (hi.senderStep_effect hs)
  | event => exact hi.event hs
  | checkMailbox => exact hi.check hs
  | receiver => exact hi.receiver hs
  | executeQueue q => exact hi.executeQueue hs
  | exit => exact hi.exit hs
  | shutdown => exact hi.shutdown hs

theorem reaches_refs (h : Reaches step Any (init (S := S) (Q := Q) (α := α)) s) : s.Refs :=
  h.invariant init_refs fun _ _ _ hi _ hs => hi.step hs

/-- What no step takes back. -/
structure Stays (s s' : MailboxState S Q α) : Prop where
  count : s.mailbox_refcount = 0 → s'.mailbox_refcount = 0
  closed : s.phase.closed = true → s'.phase.closed = true ∧ s'.mailbox.sent = s.mailbox.sent

omit [Fintype S] [DecidableEq S] [DecidableEq Q] in
theorem Stays.of_same (hcount : s'.mailbox_refcount = s.mailbox_refcount)
    (hphase : s'.phase = s.phase)
    (hmailbox : s'.mailbox = s.mailbox ∨ s.phase = .running) : Stays s s' := by
  refine ⟨fun h => hcount.trans h, fun h => ⟨hphase ▸ h, ?_⟩⟩
  rcases hmailbox with hsame | hrun
  · rw [hsame]
  · rw [hrun] at h
    cases h

omit [DecidableEq S] [DecidableEq Q] in
theorem Refs.stays_of_sender (hi : s.Refs) (he : SenderEffect s s' i) : Stays s s' := by
  refine ⟨he.rise, fun h => ⟨by rw [he.phase]; exact h, ?_⟩⟩
  rw [he.aside (hi.no_holder (hi.closed h) i)]

omit [Fintype S] [DecidableEq S] in
theorem check_stays (h : s.check = some s') : Stays s s' := by
  unfold check at h
  split at h
  · split at h
    · cases h
      exact .of_same rfl rfl (.inl rfl)
    · cases h
  · cases h
    exact .of_same rfl rfl (.inl rfl)

omit [DecidableEq S] in
theorem Refs.receiver_stays (hi : s.Refs) (h : s.receiver = some s') : Stays s s' := by
  unfold MailboxState.receiver at h
  split at h
  · cases h
  · next pc rest hstack =>
      cases h
      have hrun : s.phase = .running := by
        refine hi.running_of_frame (f := .mailbox pc) ?_ nofun
        rw [hstack]
        exact List.mem_cons_self
      unfold MailboxState.mailboxBatch
      split
      · exact .of_same rfl rfl (.inr hrun)
      · split
        · exact .of_same rfl rfl (.inr hrun)
        · exact .of_same rfl rfl (.inr hrun)
      · exact .of_same rfl rfl (.inr hrun)
  · next q pc rest hstack =>
      cases h
      unfold MailboxState.notifiedBatch
      split
      · exact .of_same rfl rfl (.inl rfl)
      · split
        · exact .of_same rfl rfl (.inl rfl)
        · exact .of_same rfl rfl (.inl rfl)
      · exact .of_same rfl rfl (.inl rfl)
  · next q rest hstack =>
      cases h
      unfold MailboxState.directBatch
      split
      · exact .of_same rfl rfl (.inl rfl)
      · exact .of_same rfl rfl (.inl rfl)

omit [Fintype S] [DecidableEq S] in
theorem shutdown_stays (h : s.shutdown = some s') : Stays s s' := by
  unfold MailboxState.shutdown at h
  split at h
  · cases h
  · split at h
    · cases h
    · next hp =>
        cases h
        exact ⟨fun hzero => by rw [hzero], fun hc => by rw [hp] at hc; cases hc⟩
    · next hp =>
        split at h
        · cases h
          exact ⟨id, fun hc => by rw [hp] at hc; cases hc⟩
        · cases h
    · cases h
      unfold MailboxState.cancelMessage
      split
      · exact ⟨id, fun _ => ⟨rfl, rfl⟩⟩
      · exact ⟨id, fun _ => ⟨rfl, rfl⟩⟩
    · cases h
      exact ⟨id, fun _ => ⟨rfl, rfl⟩⟩
    · cases h
      exact ⟨id, fun _ => ⟨rfl, rfl⟩⟩
    · cases h

theorem Refs.step_stays (hi : s.Refs) (hs : s.step a = some s') : Stays s s' := by
  cases a with
  | send i q t => exact hi.stays_of_sender (send_effect hs)
  | sender i fails => exact hi.stays_of_sender (hi.senderStep_effect hs)
  | event =>
    change s.event = some s' at hs
    unfold MailboxState.event at hs
    split at hs
    · cases hs
    · have hstays := check_stays hs
      exact ⟨hstays.count, hstays.closed⟩
  | checkMailbox => exact check_stays hs
  | receiver => exact hi.receiver_stays hs
  | executeQueue q =>
    change s.executeQueue q = some s' at hs
    unfold MailboxState.executeQueue at hs
    split at hs
    · cases hs
      exact .of_same rfl rfl (.inl rfl)
    · cases hs
  | exit =>
    change s.exit = some s' at hs
    unfold MailboxState.exit at hs
    split at hs
    · next hc =>
        cases hs
        exact ⟨id, fun h => by rw [hc.1] at h; cases h⟩
    · cases hs
  | shutdown => exact shutdown_stays hs

/-- What holds of the mailbox in every state. -/
structure MailboxSound (s : MailboxState S Q α) : Prop where
  /-- Every message that was sent is still in the mailbox, or was executed or cancelled, each
  once and in order. -/
  mailbox : s.mailbox.Logged
  /-- No sender is between its reference and its dereference once the cancellation begins. -/
  closed : s.phase.closed = true → s.mailbox_refcount = 0 ∧ ∀ i, (s.sender i).holds = 0
  /-- The mailbox is destroyed empty, freed at once, and nobody is left to touch it. -/
  destroyed : ∀ zombie, s.phase = .destroyed zombie → zombie = false ∧ s.mailbox.tasks = [] ∧
    (∀ i, (s.sender i).holds = 0) ∧ ∀ f ∈ s.stack, ∃ q, f = .direct q

omit [DecidableEq S] [DecidableEq Q] in
theorem Refs.sound (hi : s.Refs) : s.MailboxSound where
  mailbox := hi.mailbox
  closed h := ⟨hi.closed h, hi.no_holder (hi.closed h)⟩
  destroyed zombie hp := by
    have hzero := hi.closed (by rw [hp]; rfl)
    refine ⟨?_, (hi.emptied (by rw [hp]; rfl)).1, hi.no_holder hzero, hi.frames (by rw [hp]; nofun)⟩
    cases zombie with
    | false => rfl
    | true => exact absurd hp hi.freed

end

end MailboxState

end Pthread
