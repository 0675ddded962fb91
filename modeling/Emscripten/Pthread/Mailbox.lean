-- SUMMARY: Task queues and the mailbox of one receiving thread: sends, notifications, batches, and the shutdown of the mailbox.
import Emscripten.Lib.Machine
import Emscripten.Lib.ThreadPool

/-!
# Task queues and the mailbox of a thread

A sender takes a reference to the mailbox of the receiving thread, puts its task in a task
queue, and notifies the thread with a message in the mailbox unless a notification is pending
already; the mailbox notifies the thread in the same way with an event. A step is one access
to what the threads share, or one critical section of a queue's mutex. A queue is a list, its
ring buffer may fail to grow.
-/

namespace Pthread

open Machine

/-! ## Task queues -/

inductive Notification
  | none
  | received
  | pending
deriving DecidableEq, Repr

inductive Outcome
  | executed
  | cancelled
deriving DecidableEq, Repr

structure TaskQueue (α : Type) where
  notification : Notification
  tasks : List α
  /-- Ghost: all that was enqueued, and what has become of the part that was dequeued. -/
  sent : List α
  done : List (α × Outcome)

namespace TaskQueue

variable {α : Type}

/-- `em_task_queue_create`. -/
def create : TaskQueue α := ⟨.none, [], [], []⟩

def enqueue (q : TaskQueue α) (t : α) : TaskQueue α :=
  { q with tasks := q.tasks ++ [t], sent := q.sent ++ [t] }

def dequeue (q : TaskQueue α) (t : α) (ts : List α) (o : Outcome) : TaskQueue α :=
  { q with tasks := ts, done := q.done ++ [(t, o)] }

/-- The loop of `em_task_queue_cancel`. -/
def cancel (q : TaskQueue α) : TaskQueue α :=
  { q with tasks := [], done := q.done ++ q.tasks.map fun t => (t, .cancelled) }

def setNotification (q : TaskQueue α) (n : Notification) : TaskQueue α :=
  { q with notification := n }

/-- The exchange at the end of a batch. -/
def settle (q : TaskQueue α) : TaskQueue α :=
  if q.notification = .received then q.setNotification .none else q

end TaskQueue

/-! ## State -/

/-- The next access of a thread that sends. -/
inductive SenderPc (Q α : Type)
  | idle
  /-- `emscripten_thread_mailbox_ref`. -/
  | refLoad (q : Q) (t : α)
  | refCas (q : Q) (t : α) (prev : Nat)
  | enqueue (q : Q) (t : α)
  /-- The notification of the queue is exchanged. -/
  | exchange (q : Q)
  /-- `emscripten_thread_mailbox_send`. -/
  | mailboxEnqueue (q : Q)
  | mailboxExchange
  | post
  /-- `emscripten_thread_mailbox_unref`, and the result of the send. -/
  | unref (ok : Bool)
  | futexWake (ok : Bool)

inductive BatchPc
  /-- The notification is about to be marked as received. -/
  | start
  | loop
  /-- The notification is about to be settled. -/
  | finish
deriving DecidableEq, Repr

/-- What the receiving thread is in. -/
inductive Frame (Q : Type)
  /-- `_emscripten_check_mailbox`. -/
  | mailbox (pc : BatchPc)
  /-- `receive_notification`. -/
  | notified (q : Q) (pc : BatchPc)
  /-- `emscripten_proxy_execute_queue`. -/
  | direct (q : Q)
deriving DecidableEq

/-- Where the receiving thread is in its life. -/
inductive Phase (Q : Type)
  | running
  /-- It exits, and is about to give its reference to the mailbox back. -/
  | exiting
  /-- It waits for the count to be zero. -/
  | waiting
  /-- It cancels the messages; one has cancelled the tasks of this queue already. -/
  | cancelling (q : Option Q)
  | destroying
  /-- The mailbox is freed, or is a zombie to be freed later. -/
  | destroyed (zombie : Bool)
deriving DecidableEq

/-- The queue's `processing`. -/
def Frame.processing {Q : Type} [DecidableEq Q] (q : Q) : Frame Q → Bool
  | .notified q' pc => q' = q ∧ pc = .loop
  | .direct q' => q' = q
  | .mailbox _ => false

structure MailboxState (S Q α : Type) where
  mailbox_refcount : Nat
  queue : Q → TaskQueue (S × α)
  mailbox : TaskQueue Q
  /-- The events under way to the thread. -/
  events : Nat
  sender : S → SenderPc Q α
  stack : List (Frame Q)
  phase : Phase Q

inductive MailboxAction (S Q α : Type)
  | send (i : S) (q : Q) (t : α)
  /-- The next access of a sender: an exchange or an allocation may fail. -/
  | sender (i : S) (fails : Bool)
  | event
  /-- `checkMailbox` without an event of a sender. -/
  | checkMailbox
  /-- The next access of the innermost batch. -/
  | receiver
  | executeQueue (q : Q)
  | exit
  /-- The next access of the shutdown. -/
  | shutdown

namespace MailboxState

variable {S Q α : Type} [DecidableEq S] [DecidableEq Q]

/-- `_emscripten_thread_mailbox_init`. -/
def init : MailboxState S Q α :=
  ⟨1, fun _ => .create, .create, 0, fun _ => .idle, [], .running⟩

def setQueue (s : MailboxState S Q α) (q : Q) (x : TaskQueue (S × α)) : MailboxState S Q α :=
  { s with queue := Function.update s.queue q x }

def setSender (s : MailboxState S Q α) (i : S) (pc : SenderPc Q α) : MailboxState S Q α :=
  { s with sender := Function.update s.sender i pc }

/-! ## Senders -/

def send (s : MailboxState S Q α) (i : S) (q : Q) (t : α) : Option (MailboxState S Q α) :=
  match s.sender i with
  | .idle => some (s.setSender i (.refLoad q t))
  | _ => none

/-- A round of the loop of `emscripten_thread_mailbox_ref`. -/
def refRound (q : Q) (t : α) (prev_count : Nat) : SenderPc Q α :=
  if prev_count = 0 then .idle else .refCas q t prev_count

/-- The exchange may fail without a reason. -/
def refCas (s : MailboxState S Q α) (i : S) (q : Q) (t : α) (prev : Nat) (fails : Bool) :
    MailboxState S Q α :=
  if s.mailbox_refcount = prev ∧ ¬ fails then
    { s.setSender i (.enqueue q t) with mailbox_refcount := prev + 1 }
  else s.setSender i (refRound q t s.mailbox_refcount)

def enqueue (s : MailboxState S Q α) (i : S) (q : Q) (t : α) (fails : Bool) :
    MailboxState S Q α :=
  if fails then s.setSender i (.unref false)
  else (s.setQueue q ((s.queue q).enqueue (i, t))).setSender i (.exchange q)

def exchange (s : MailboxState S Q α) (i : S) (q : Q) : MailboxState S Q α :=
  (s.setQueue q ((s.queue q).setNotification .pending)).setSender i
    (if (s.queue q).notification = .pending then .unref true else .mailboxEnqueue q)

/-- An allocation that fails is asserted not to happen. -/
def mailboxEnqueue (s : MailboxState S Q α) (i : S) (q : Q) (fails : Bool) :
    Option (MailboxState S Q α) :=
  if fails then none
  else some { s.setSender i .mailboxExchange with mailbox := s.mailbox.enqueue q }

def mailboxExchange (s : MailboxState S Q α) (i : S) : MailboxState S Q α :=
  { s.setSender i (if s.mailbox.notification = .pending then .unref true else .post) with
    mailbox := s.mailbox.setNotification .pending }

def post (s : MailboxState S Q α) (i : S) : MailboxState S Q α :=
  { s.setSender i (.unref true) with events := s.events + 1 }

def unref (s : MailboxState S Q α) (i : S) (ok : Bool) : MailboxState S Q α :=
  { s.setSender i (if s.mailbox_refcount - 1 = 0 then .futexWake ok else .idle) with
    mailbox_refcount := s.mailbox_refcount - 1 }

def senderStep (s : MailboxState S Q α) (i : S) (fails : Bool) : Option (MailboxState S Q α) :=
  match s.sender i with
  | .idle => none
  | .refLoad q t => some (s.setSender i (refRound q t s.mailbox_refcount))
  | .refCas q t prev => some (s.refCas i q t prev fails)
  | .enqueue q t => some (s.enqueue i q t fails)
  | .exchange q => some (s.exchange i q)
  | .mailboxEnqueue q => s.mailboxEnqueue i q fails
  | .mailboxExchange => some (s.mailboxExchange i)
  | .post => some (s.post i)
  | .unref ok => some (s.unref i ok)
  | .futexWake _ => some (s.setSender i .idle)

/-! ## The receiving thread -/

/-- The event loop runs `checkMailbox`. Without a live runtime it does nothing. -/
def check (s : MailboxState S Q α) : Option (MailboxState S Q α) :=
  if s.phase = .running then
    if s.stack = [] then some { s with stack := [.mailbox .start] } else none
  else some s

def event (s : MailboxState S Q α) : Option (MailboxState S Q α) :=
  if s.events = 0 then none else { s with events := s.events - 1 }.check

def mailboxBatch (s : MailboxState S Q α) (rest : List (Frame Q)) : BatchPc → MailboxState S Q α
  | .start =>
    { s with mailbox := s.mailbox.setNotification .received, stack := .mailbox .loop :: rest }
  | .loop =>
    match s.mailbox.tasks with
    | [] => { s with stack := .mailbox .finish :: rest }
    | q :: qs =>
      { s with
        mailbox := s.mailbox.dequeue q qs .executed
        stack := .notified q .start :: .mailbox .loop :: rest }
  | .finish => { s with mailbox := s.mailbox.settle, stack := rest }

def notifiedBatch (s : MailboxState S Q α) (q : Q) (rest : List (Frame Q)) :
    BatchPc → MailboxState S Q α
  | .start =>
    { s.setQueue q ((s.queue q).setNotification .received) with
      stack := .notified q .loop :: rest }
  | .loop =>
    match (s.queue q).tasks with
    | [] => { s with stack := .notified q .finish :: rest }
    | t :: ts => s.setQueue q ((s.queue q).dequeue t ts .executed)
  | .finish => { s.setQueue q (s.queue q).settle with stack := rest }

def directBatch (s : MailboxState S Q α) (q : Q) (rest : List (Frame Q)) : MailboxState S Q α :=
  match (s.queue q).tasks with
  | [] => { s with stack := rest }
  | t :: ts => s.setQueue q ((s.queue q).dequeue t ts .executed)

def receiver (s : MailboxState S Q α) : Option (MailboxState S Q α) :=
  match s.stack with
  | [] => none
  | .mailbox pc :: rest => some (s.mailboxBatch rest pc)
  | .notified q pc :: rest => some (s.notifiedBatch q rest pc)
  | .direct q :: rest => some (s.directBatch q rest)

/-- Whether code of the thread can run: it is in no batch, or in a task of one. -/
def runsCode (s : MailboxState S Q α) : Bool :=
  match s.stack with
  | [] => true
  | .mailbox _ :: _ => false
  | .notified _ pc :: _ => pc = .loop
  | .direct _ :: _ => true

/-- Code of the thread executes a queue that it is not processing already. -/
def executeQueue (s : MailboxState S Q α) (q : Q) : Option (MailboxState S Q α) :=
  if s.runsCode ∧ ∀ f ∈ s.stack, ¬ f.processing q then
    some { s with stack := .direct q :: s.stack }
  else none

/-! ## Shutdown -/

/-- The thread exits from where it is. -/
def exit (s : MailboxState S Q α) : Option (MailboxState S Q α) :=
  if s.phase = .running ∧ s.runsCode then some { s with stack := [], phase := .exiting } else none

/-- One message is cancelled, and with it all tasks of its queue; then the notification of the
queue is cleared. -/
def cancelMessage (s : MailboxState S Q α) : MailboxState S Q α :=
  match s.mailbox.tasks with
  | [] => { s with mailbox := s.mailbox.setNotification .none, phase := .destroying }
  | q :: qs =>
    { s.setQueue q (s.queue q).cancel with
      mailbox := s.mailbox.dequeue q qs .cancelled, phase := .cancelling (some q) }

/-- `em_task_queue_destroy`. -/
def destroy (s : MailboxState S Q α) : MailboxState S Q α :=
  { s with phase := .destroyed (s.mailbox.notification ≠ .none) }

/-- `_emscripten_thread_mailbox_shutdown`, where the thread is in no batch. -/
def shutdown (s : MailboxState S Q α) : Option (MailboxState S Q α) :=
  if s.stack ≠ [] then none
  else
    match s.phase with
    | .running => none
    | .exiting => some { s with mailbox_refcount := s.mailbox_refcount - 1, phase := .waiting }
    | .waiting => if s.mailbox_refcount = 0 then some { s with phase := .cancelling none } else none
    | .cancelling none => some s.cancelMessage
    | .cancelling (some q) =>
      some { s.setQueue q ((s.queue q).setNotification .none) with phase := .cancelling none }
    | .destroying => some s.destroy
    | .destroyed _ => none

def step (s : MailboxState S Q α) : MailboxAction S Q α → Option (MailboxState S Q α)
  | .send i q t => s.send i q t
  | .sender i fails => s.senderStep i fails
  | .event => s.event
  | .checkMailbox => s.check
  | .receiver => s.receiver
  | .executeQueue q => s.executeQueue q
  | .exit => s.exit
  | .shutdown => s.shutdown

end MailboxState

end Pthread
