-- SUMMARY: The messages handed to a WebSocket are those that were accepted, in order, unless the open callback overtakes the queue.
import Emscripten.Sockfs.ByteStream

/-!
# The order of messages

What a WebSocket was given and what waits for it are, in this order, the messages for which
`sendmsg` reported success. A message sent by the callback of the "open" event goes out at
once, before the queue.
-/

namespace Sockfs

open Prog Machine

/-- The data messages of a list. -/
def dataOf (ms : List Msg) : List Bytes := ms.filterMap fun m =>
  match m with
  | .data bs => some bs
  | .port _ => none

@[simp] theorem dataOf_nil : dataOf [] = [] := rfl

@[simp] theorem dataOf_append (ms ms' : List Msg) : dataOf (ms ++ ms') = dataOf ms ++ dataOf ms' :=
  List.filterMap_append

@[simp] theorem dataOf_data (bs : Bytes) : dataOf [.data bs] = [bs] := rfl

variable {s s' : Sock} {p : PeerId} {a : Address}

/-! ## New peers -/

theorem newPeer_peer (s : Sock) (a : Address) (st : ReadyState) (q : PeerId) :
    q ≠ s.nextPeer → (s.newPeer a st).peer q = s.peer q := by
  intro hq
  simp [Sock.newPeer, Sock.addPeer, Sock.setPeer, hq]

theorem newPeer_self (s : Sock) (a : Address) (st : ReadyState) :
    ((s.newPeer a st).peer s.nextPeer).handed = [] ∧
      dataOf ((s.newPeer a st).peer s.nextPeer).msg_send_queue = [] := by
  simp only [Sock.newPeer, Sock.addPeer, Sock.setPeer, Function.update_self]
  refine ⟨trivial, ?_⟩
  split <;> rfl

theorem newPeer_peers (s : Sock) (a : Address) (st : ReadyState) :
    (s.newPeer a st).peers = Function.update s.peers a (some s.nextPeer) := by
  simp [Sock.newPeer, Sock.addPeer, Sock.setPeer]

/-! ## sendmsg -/

/-- The ways a message is accepted. -/
inductive Sends (s : Sock) (data : Bytes) (target : Option Address) : PeerId → Sock → Prop
  | direct (p : PeerId) (hp : s.getPeer (s.destination target) = some p)
      (hopen : (s.peer p).readyState = .OPEN) : Sends s data target p (s.send p (.data data))
  | queued (p : PeerId) (hp : s.getPeer (s.destination target) = some p)
      (hopen : (s.peer p).readyState ≠ .OPEN) : Sends s data target p (s.pushSend p (.data data))
  | fresh (a : Address) (ha : s.destination target = some a) :
      Sends s data target s.nextPeer ((s.newPeer a .CONNECTING).pushSend s.nextPeer (.data data))

theorem createPeer_apply (a : Address) (reachable : Bool) (s : Sock) : createPeer a reachable s =
    if reachable then some (s.newPeer a .CONNECTING, .ok s.nextPeer)
    else some (s, .error .EHOSTUNREACH) := by
  unfold createPeer
  rw [failIf_bind_apply]
  cases reachable <;> rfl

/-- What is accepted is put on the queue of a peer that was there, or of a new one. -/
theorem queue_cases {data : Bytes} {target : Option Address} {reachable : Bool} {r : Except Errno Nat}
    (ha : s.destination target = some a) (hwait : ∀ p, s.getPeer (some a) = some p →
      (s.peer p).readyState ≠ .OPEN)
    (h : (do
      let p ← queuePeer a (s.getPeer (some a)) reachable
      Prog.modify fun s => s.pushSend p (.data data)
      pure data.length : Sys Nat) s = some (s', r)) :
    (s' = s ∧ ∃ e, r = .error e) ∨ r = .ok data.length ∧ ∃ p, Sends s data target p s' := by
  have hnew : (do
      let p ← createPeer a reachable
      Prog.modify fun s => s.pushSend p (.data data)
      pure data.length : Sys Nat) s = some (s', r) →
      (s' = s ∧ ∃ e, r = .error e) ∨ r = .ok data.length ∧ ∃ p, Sends s data target p s' := by
    intro h
    cases reachable with
    | true =>
      rw [bind_of_ok ((createPeer_apply a true s).trans (if_pos rfl))] at h
      cases h
      exact .inr ⟨rfl, _, .fresh a ha⟩
    | false =>
      rw [bind_of_error ((createPeer_apply a false s).trans (if_neg (by decide)))] at h
      cases h
      exact .inl ⟨rfl, _, rfl⟩
  unfold queuePeer at h
  rw [bind_assoc, gets_bind_apply, id] at h
  cases hp : s.getPeer (some a) with
  | none =>
    rw [hp] at h
    exact hnew h
  | some p =>
    simp only [hp] at h
    split at h
    · exact hnew h
    · cases h
      exact .inr ⟨rfl, p, .queued p (by rw [ha, hp]) (hwait p hp)⟩

theorem sendmsg_cases {data : Bytes} {target : Option Address} {reachable : Bool}
    {r : Except Errno Nat} (h : sendmsg data target reachable s = some (s', r)) :
    (s' = s ∧ ∃ e, r = .error e) ∨ r = .ok data.length ∧ ∃ p, Sends s data target p s' := by
  unfold sendmsg at h
  rw [gets_bind_apply, id, failIf_bind_apply] at h
  split at h
  · cases h
    exact .inl ⟨rfl, _, rfl⟩
  rw [failIf_bind_apply] at h
  split at h
  · cases h
    exact .inl ⟨rfl, _, rfl⟩
  cases ha : s.destination target with
  | none =>
    rw [ha] at h
    cases h
    exact .inl ⟨rfl, _, rfl⟩
  | some a =>
    simp only [ha] at h
    unfold transmit at h
    rw [gets_bind_apply, id] at h
    cases hp : (s.getPeer (some a)).filter fun p => (s.peer p).readyState = .OPEN with
    | some p =>
      rw [hp] at h
      cases h
      obtain ⟨hpeer, hopen⟩ := Option.filter_eq_some_iff.mp hp
      exact .inr ⟨rfl, p, .direct p (by rw [ha, hpeer]) (of_decide_eq_true hopen)⟩
    | none =>
      rw [hp] at h
      refine queue_cases ha (fun p hpeer hopen => ?_) h
      have hno := Option.filter_eq_none_iff.mp hp p hpeer
      exact hno (decide_eq_true hopen)

/-- After it was accepted, a message is found to have gone to its peer. -/
theorem Sends.sentTo {data : Bytes} {target : Option Address} (h : Sends s data target p s') :
    SockRun.sentTo s' target = some p := by
  cases h with
  | direct _ hp _ => exact hp
  | queued _ hp _ => exact hp
  | fresh a ha =>
    have hd : ((s.newPeer a .CONNECTING).pushSend s.nextPeer (.data data)).destination target =
        some a := ha
    unfold SockRun.sentTo Sock.getPeer
    rw [hd]
    change (s.newPeer a .CONNECTING).peers a = some s.nextPeer
    rw [newPeer_peers, Function.update_self]

/-! ## Calls that do not send -/

/-- What keeps the peers. -/
def KeepsPeers (s s' : Sock) : Prop :=
  s'.peer = s.peer ∧ s'.peers = s.peers ∧ s'.nextPeer = s.nextPeer

instance : IsPreorder Sock KeepsPeers where
  refl _ := ⟨rfl, rfl, rfl⟩
  trans _ _ _ h h' := ⟨h'.1.trans h.1, h'.2.1.trans h.2.1, h'.2.2.trans h.2.2⟩

theorem keepsPeers_recvNothing : Within KeepsPeers recvNothing := by
  refine .bind .gets fun s => ?_
  split
  · exact .fail
  · exact .ite (fun _ => .pure) fun _ => .fail
  · exact .fail

theorem keepsPeers_recvmsg (length : Int) : Within KeepsPeers (recvmsg length) := by
  refine .bind .gets fun s => .bind .failIf fun _ => ?_
  split
  · exact keepsPeers_recvNothing
  · refine .bind (.modify fun _ => ⟨rfl, rfl, rfl⟩) fun _ => .bind .failIf fun _ => .ite (fun _ => ?_) fun _ => .pure
    exact .bind (.modify fun _ => ⟨rfl, rfl, rfl⟩) fun _ => .pure

theorem keepsPeers_bind (a : Address) : Within KeepsPeers (Sockfs.bind a) :=
  .bind .gets fun _ => .bind .failIf fun _ => .modify fun _ => ⟨rfl, rfl, rfl⟩

theorem keepsPeers_listen (isNode : Bool) : Within KeepsPeers (listen isNode) :=
  .bind .failIf fun _ => .bind .gets fun _ => .bind .failIf fun _ => .modify fun _ => ⟨rfl, rfl, rfl⟩

theorem keepsPeers_read (length : Int) : Within KeepsPeers (read length) :=
  .bind .failIf fun _ => .bind (keepsPeers_recvmsg length) fun _ => .pure

theorem keepsPeers_recvfrom (length : Int) : Within KeepsPeers (recvfrom length) :=
  .bind (keepsPeers_recvmsg length) fun _ => .pure

theorem keepsPeers_fionread : Within KeepsPeers fionread := .gets

/-- A connection fails, or makes a peer. -/
theorem connect_cases {reachable : Bool} {r : Except Errno Unit}
    (h : connect a reachable s = some (s', r)) : s' = s ∨
      s' = { s.newPeer a .CONNECTING with dest := some a, connecting := true } := by
  unfold connect at h
  rw [gets_bind_apply, id, failIf_bind_apply] at h
  split at h
  · cases h
    exact .inl rfl
  cases hp : s.getPeer s.dest with
  | some p =>
    rw [hp] at h
    cases h
    exact .inl rfl
  | none =>
    simp only [hp] at h
    cases reachable with
    | true =>
      rw [bind_of_ok ((createPeer_apply a true s).trans (if_pos rfl))] at h
      cases h
      exact .inr rfl
    | false =>
      rw [bind_of_error ((createPeer_apply a false s).trans (if_neg (by decide)))] at h
      cases h
      exact .inl rfl

/-! ## Runs -/

variable {u : SockRun}

namespace SockRun

variable {s t : SockRun} {e : Event}

/-- While the callback of an "open" event runs and messages wait, it sends none to the same peer, and
does not throw. -/
def QuietOpening (s : SockRun) : Event → Prop
  | .call (.sendmsg _ target _) => ∀ p, s.opening = some p →
      dataOf (s.sock.peer p).msg_send_queue ≠ [] → s.sock.getPeer (s.sock.destination target) ≠ some p
  | .thrown => ∀ p, s.opening = some p → dataOf (s.sock.peer p).msg_send_queue = []
  | _ => True

structure Ordered (s : SockRun) : Prop where
  lt : ∀ a p, s.sock.peers a = some p → p < s.sock.nextPeer
  opened : ∀ p, s.opening = some p → p < s.sock.nextPeer
  account : ∀ p, dataOf (s.sock.peer p).handed ++ dataOf (s.sock.peer p).msg_send_queue = s.accepted p
  drained : ∀ p, (s.sock.peer p).readyState = .OPEN → s.opening ≠ some p →
    dataOf (s.sock.peer p).msg_send_queue = []
  fresh : ∀ p, s.sock.nextPeer ≤ p → s.accepted p = []

/-- One peer changes. -/
theorem Ordered.change (h : s.Ordered) {p : PeerId} (hp : p < s.sock.nextPeer)
    (hnext : u.sock.nextPeer = s.sock.nextPeer) (hpeers : ∀ a q, u.sock.peers a = some q → q < s.sock.nextPeer)
    (hother : ∀ q ≠ p, u.sock.peer q = s.sock.peer q ∧ u.accepted q = s.accepted q)
    (hopening : ∀ q ≠ p, u.opening = some q ↔ s.opening = some q)
    (haccount : dataOf (u.sock.peer p).handed ++ dataOf (u.sock.peer p).msg_send_queue = u.accepted p)
    (hdrained : (u.sock.peer p).readyState = .OPEN → u.opening ≠ some p →
      dataOf (u.sock.peer p).msg_send_queue = []) : u.Ordered where
  lt a q hq := by
    rw [hnext]
    exact hpeers a q hq
  opened q hq := by
    rw [hnext]
    by_cases he : q = p
    · exact he ▸ hp
    · exact h.opened q ((hopening q he).mp hq)
  account q := by
    by_cases he : q = p
    · exact he ▸ haccount
    · rw [(hother q he).1, (hother q he).2]
      exact h.account q
  drained q hopen hq := by
    by_cases he : q = p
    · subst he
      exact hdrained hopen hq
    · rw [(hother q he).1] at hopen ⊢
      exact h.drained q hopen fun hs => hq ((hopening q he).mpr hs)
  fresh q hq := by
    rw [hnext] at hq
    have he : q ≠ p := fun he => Nat.lt_irrefl _ (Nat.lt_of_le_of_lt hq (he ▸ hp))
    rw [(hother q he).2]
    exact h.fresh q hq

/-- The peers stay as they are. -/
theorem Ordered.same (h : s.Ordered) (hpeer : u.sock.peer = s.sock.peer) (hpeers : u.sock.peers = s.sock.peers)
    (hnext : u.sock.nextPeer = s.sock.nextPeer) (hopening : u.opening = s.opening)
    (haccepted : u.accepted = s.accepted) : u.Ordered := by
  refine ⟨?_, ?_, ?_, ?_, ?_⟩
  · rw [hpeers, hnext]
    exact h.lt
  · rw [hopening, hnext]
    exact h.opened
  · rw [hpeer, haccepted]
    exact h.account
  · rw [hpeer, hopening]
    exact h.drained
  · rw [hnext, haccepted]
    exact h.fresh

/-- A peer is added. -/
theorem Ordered.newPeer (h : s.Ordered) (a : Address) (st : ReadyState) :
    ({ s with sock := s.sock.newPeer a st } : SockRun).Ordered where
  lt b q hq := by
    change (s.sock.newPeer a st).peers b = some q at hq
    rw [newPeer_peers, Function.update_apply] at hq
    change q < s.sock.nextPeer + 1
    split at hq
    · cases hq
      exact Nat.lt_succ_self _
    · exact Nat.lt_succ_of_lt (h.lt b q hq)
  opened q hq := Nat.lt_succ_of_lt (h.opened q hq)
  account q := by
    by_cases he : q = s.sock.nextPeer
    · subst he
      obtain ⟨hhanded, hqueue⟩ := newPeer_self s.sock a st
      change dataOf ((s.sock.newPeer a st).peer _).handed ++ _ = s.accepted _
      rw [hhanded, hqueue, h.fresh _ (Nat.le_refl _)]
      rfl
    · change dataOf ((s.sock.newPeer a st).peer q).handed ++ _ = _
      rw [newPeer_peer _ _ _ _ he]
      exact h.account q
  drained q hopen hq := by
    by_cases he : q = s.sock.nextPeer
    · subst he
      exact (newPeer_self s.sock a st).2
    · change ((s.sock.newPeer a st).peer q).readyState = _ at hopen
      change dataOf ((s.sock.newPeer a st).peer q).msg_send_queue = []
      rw [newPeer_peer _ _ _ _ he] at hopen ⊢
      exact h.drained q hopen hq
  fresh q hq := h.fresh q (Nat.le_of_succ_le hq)

/-- A message goes to a peer. -/
theorem Ordered.sends (h : s.Ordered) {data : Bytes} {target : Option Address} {reachable : Bool}
    (hc : s.QuietOpening (.call (.sendmsg data target reachable))) {p : PeerId} {sock : Sock}
    (hs : Sends s.sock data target p sock) (hsock : u.sock = sock) (hopening : u.opening = s.opening)
    (haccepted : u.accepted = Function.update s.accepted p (s.accepted p ++ [data])) : u.Ordered := by
  have hacc : ∀ q ≠ p, u.accepted q = s.accepted q := fun q hq => by
    rw [haccepted, Function.update_of_ne hq]
  have haccp : u.accepted p = s.accepted p ++ [data] := by rw [haccepted, Function.update_self]
  cases hs with
  | direct _ hp hopen =>
    -- Nothing waits before it: the peer is open, and if it is just opening, the callback is quiet.
    have hempty : dataOf (s.sock.peer p).msg_send_queue = [] := by
      by_cases hop : s.opening = some p
      · by_contra hwait
        exact hc p hop hwait hp
      · exact h.drained p hopen hop
    obtain ⟨a, _, ha⟩ := Option.bind_eq_some_iff.mp hp
    have hself : u.sock.peer p = { s.sock.peer p with
        handed := (s.sock.peer p).handed ++ [.data data] } := by
      rw [hsock]
      exact Function.update_self ..
    refine h.change (h.lt a p ha) (by rw [hsock]; rfl) (fun b q hq => ?_) (fun q hq => ?_)
      (fun q _ => by rw [hopening]) ?_ (fun _ _ => ?_)
    · rw [hsock] at hq
      exact h.lt b q hq
    · refine ⟨?_, hacc q hq⟩
      rw [hsock]
      exact Function.update_of_ne hq ..
    · rw [haccp, hself, ← h.account p]
      simp [hempty]
    · rw [hself]
      exact hempty
  | queued _ hp hopen =>
    obtain ⟨a, _, ha⟩ := Option.bind_eq_some_iff.mp hp
    have hself : u.sock.peer p = { s.sock.peer p with
        msg_send_queue := (s.sock.peer p).msg_send_queue ++ [.data data] } := by
      rw [hsock]
      exact Function.update_self ..
    refine h.change (h.lt a p ha) (by rw [hsock]; rfl) (fun b q hq => ?_) (fun q hq => ?_)
      (fun q _ => by rw [hopening]) ?_ (fun ho _ => ?_)
    · rw [hsock] at hq
      exact h.lt b q hq
    · refine ⟨?_, hacc q hq⟩
      rw [hsock]
      exact Function.update_of_ne hq ..
    · rw [haccp, hself, ← h.account p]
      simp
    · rw [hself] at ho
      exact absurd ho hopen
  | fresh a ha =>
    have hnew := h.newPeer a .CONNECTING
    have hself : u.sock.peer s.sock.nextPeer =
        { (s.sock.newPeer a .CONNECTING).peer s.sock.nextPeer with msg_send_queue :=
          ((s.sock.newPeer a .CONNECTING).peer s.sock.nextPeer).msg_send_queue ++ [.data data] } := by
      rw [hsock]
      exact Function.update_self ..
    refine hnew.change (p := s.sock.nextPeer) (Nat.lt_succ_self _) (by rw [hsock]; rfl)
      (fun b q hq => ?_) (fun q hq => ?_) (fun q _ => by rw [hopening]) ?_ (fun ho _ => ?_)
    · rw [hsock] at hq
      exact hnew.lt b q hq
    · refine ⟨?_, hacc q hq⟩
      rw [hsock]
      exact Function.update_of_ne hq ..
    · rw [haccp, hself, h.fresh _ (Nat.le_refl _)]
      obtain ⟨hhanded, hqueue⟩ := newPeer_self s.sock a .CONNECTING
      simp [hhanded, hqueue]
    · rw [hself] at ho
      have hst : ((s.sock.newPeer a .CONNECTING).peer s.sock.nextPeer).readyState = .CONNECTING := by
        simp [Sock.newPeer, Sock.addPeer, Sock.setPeer]
      rw [hst] at ho
      cases ho

/-- What a call that does not send is noted with. -/
theorem note_accepted (s : SockRun) (sock : Sock) {c : Call} (hc : ∀ data target k, c ≠ .sendmsg data target k)
    (r : Except Errno Reply) : (s.note sock c r).accepted = s.accepted ∧
      (s.note sock c r).opening = s.opening := by
  unfold note
  split
  · exact absurd rfl (hc _ _ _)
  · exact ⟨rfl, rfl⟩
  · exact ⟨rfl, rfl⟩

theorem Ordered.call (h : s.Ordered) {c : Call} (hc : s.QuietOpening (.call c)) {sock : Sock}
    {r : Except Errno Reply} (hrun : c.run s.sock = some (sock, r)) : (s.note sock c r).Ordered := by
  have hsock := (note_same s sock c r).1
  have hkeep : (∀ data target k, c ≠ .sendmsg data target k) → KeepsPeers s.sock sock →
      (s.note sock c r).Ordered := fun hno hk => by
    obtain ⟨hacc, hopening⟩ := note_accepted s sock hno r
    exact h.same (by rw [hsock, hk.1]) (by rw [hsock, hk.2.1]) (by rw [hsock, hk.2.2]) hopening hacc
  cases c with
  | bind a =>
    obtain ⟨r', hr', rfl⟩ := run_map hrun
    exact hkeep (by simp) (keepsPeers_bind a _ _ _ hr')
  | listen isNode =>
    obtain ⟨r', hr', rfl⟩ := run_map hrun
    exact hkeep (by simp) (keepsPeers_listen isNode _ _ _ hr')
  | connect a reachable =>
    obtain ⟨r', hr', rfl⟩ := run_map hrun
    obtain ⟨hacc, hopening⟩ := note_accepted s sock (c := .connect a reachable) (by simp)
      (r'.map fun _ => .unit)
    rcases connect_cases hr' with rfl | rfl
    · exact hkeep (by simp) ⟨rfl, rfl, rfl⟩
    · exact (h.newPeer a .CONNECTING).same (by rw [hsock]) (by rw [hsock]) (by rw [hsock]) hopening hacc
  | sendmsg data target reachable =>
    obtain ⟨r', hr', rfl⟩ := run_map hrun
    rcases sendmsg_cases hr' with ⟨rfl, e, rfl⟩ | ⟨rfl, p, hsend⟩
    · exact h.same rfl rfl rfl rfl rfl
    · have hnote : s.note sock (.sendmsg data target reachable)
          ((.ok data.length : Except Errno Nat).map .count) =
          { s with sock := sock, accepted := Function.update s.accepted p (s.accepted p ++ [data]) } := by
        simp only [note, Except.map, hsend.sentTo]
      rw [hnote]
      exact h.sends hc hsend rfl rfl rfl
  | read length =>
    obtain ⟨r', hr', rfl⟩ := run_map hrun
    exact hkeep (by simp) (keepsPeers_read length _ _ _ hr')
  | recvfrom length =>
    obtain ⟨r', hr', rfl⟩ := run_map hrun
    exact hkeep (by simp) (keepsPeers_recvfrom length _ _ _ hr')
  | fionread =>
    obtain ⟨r', hr', rfl⟩ := run_map hrun
    exact hkeep (by simp) (keepsPeers_fionread _ _ _ hr')

theorem peers_addPeer {s : Sock} {p q : PeerId} {b : Address} (h : (s.addPeer p).peers b = some q) :
    q = p ∨ s.peers b = some q := by
  simp only [Sock.addPeer, Function.update_apply] at h
  split at h
  · exact .inl (Option.some.inj h).symm
  · exact .inr h

theorem peers_removePeer {s : Sock} {p q : PeerId} {b : Address}
    (h : (s.removePeer p).peers b = some q) : s.peers b = some q := by
  simp only [Sock.removePeer, Function.update_apply] at h
  split at h
  · cases h
  · exact h

/-- A message changes neither queue of any peer. -/
theorem handleMessage_peer (s : Sock) (p : PeerId) (isText : Bool) (data : Bytes) :
    (∀ q, ((s.handleMessage p isText data).peer q).handed = (s.peer q).handed ∧
      ((s.handleMessage p isText data).peer q).msg_send_queue = (s.peer q).msg_send_queue ∧
      ((s.handleMessage p isText data).peer q).readyState = (s.peer q).readyState) ∧
    (s.handleMessage p isText data).nextPeer = s.nextPeer ∧
    ∀ b q, (s.handleMessage p isText data).peers b = some q → q = p ∨ ∃ b', s.peers b' = some q := by
  unfold Sock.handleMessage
  split
  · exact ⟨fun _ => ⟨rfl, rfl, rfl⟩, rfl, fun b q hq => .inr ⟨b, hq⟩⟩
  dsimp only
  split
  · refine ⟨fun q => ?_, rfl, fun b q hq => ?_⟩
    · by_cases hq : q = p
      · simp [Sock.addPeer, Sock.removePeer, Sock.setPeer, hq]
      · simp [Sock.addPeer, Sock.removePeer, Sock.setPeer, hq]
    · refine (peers_addPeer hq).imp id fun hq => ⟨b, ?_⟩
      exact peers_removePeer (s := s.setPeer p { s.peer p with first := false }) hq
  · refine ⟨fun q => ?_, rfl, fun b q hq => .inr ⟨b, hq⟩⟩
    by_cases hq : q = p <;> simp [Sock.setPeer, hq]

theorem Ordered.message (h : s.Ordered) {p : PeerId} (hp : p < s.sock.nextPeer) (isText : Bool) (data : Bytes)
    (hsock : u.sock = s.sock.handleMessage p isText data) (hopening : u.opening = s.opening)
    (haccepted : u.accepted = s.accepted) : u.Ordered := by
  obtain ⟨hpeer, hnext, hpeers⟩ := handleMessage_peer s.sock p isText data
  refine ⟨fun b q hq => ?_, fun q hq => ?_, fun q => ?_, fun q hopen hq => ?_, fun q hq => ?_⟩
  · rw [hsock] at hq ⊢
    rw [hnext]
    rcases hpeers b q hq with rfl | ⟨b', hb'⟩
    · exact hp
    · exact h.lt b' q hb'
  · rw [hopening] at hq
    rw [hsock, hnext]
    exact h.opened q hq
  · rw [hsock, haccepted, (hpeer q).1, (hpeer q).2.1]
    exact h.account q
  · rw [hsock, (hpeer q).2.2] at hopen
    rw [hopening] at hq
    rw [hsock, (hpeer q).2.1]
    exact h.drained q hopen hq
  · rw [hsock, hnext] at hq
    rw [haccepted]
    exact h.fresh q hq

theorem Ordered.step (h : s.Ordered) (hc : s.QuietOpening e) (hs : s.step e = some t) : t.Ordered := by
  have hset : ∀ (p : PeerId) (pr : Peer), ∀ q ≠ p, (s.sock.setPeer p pr).peer q = s.sock.peer q :=
    fun p pr q hq => Function.update_of_ne hq ..
  have hself : ∀ (p : PeerId) (pr : Peer), (s.sock.setPeer p pr).peer p = pr :=
    fun p pr => Function.update_self ..
  cases e with
  | call c =>
    obtain ⟨⟨sock, r⟩, hrun, rfl⟩ := Option.map_eq_some_iff.mp hs
    exact h.call hc hrun
  | opened p =>
    simp only [SockRun.step, Option.ite_none_right_eq_some, Option.some.injEq] at hs
    obtain ⟨⟨hnone, hp, _⟩, rfl⟩ := hs
    refine h.change hp rfl h.lt (fun q hq => ⟨hset p _ q hq, rfl⟩) (fun q hq => ?_) ?_
      (fun _ hne => absurd rfl hne)
    · rw [hnone]
      simp only [Option.some.injEq, reduceCtorEq, iff_false]
      exact fun he => hq he.symm
    · exact (congrArg (fun pr : Peer => dataOf pr.handed ++ dataOf pr.msg_send_queue)
        (hself p _)).trans (h.account p)
  | returned =>
    obtain ⟨p, hp, rfl⟩ := Option.map_eq_some_iff.mp hs
    have hflush := hself p { s.sock.peer p with
      handed := (s.sock.peer p).handed ++ (s.sock.peer p).msg_send_queue, msg_send_queue := [] }
    refine h.change (h.opened p hp) rfl h.lt (fun q hq => ⟨hset p _ q hq, rfl⟩) (fun q hq => ?_) ?_
      fun _ _ => congrArg (fun pr : Peer => dataOf pr.msg_send_queue) hflush
    · rw [hp]
      simp only [Option.some.injEq, reduceCtorEq, false_iff]
      exact fun he => hq he.symm
    · refine (congrArg (fun pr : Peer => dataOf pr.handed ++ dataOf pr.msg_send_queue) hflush).trans ?_
      simp [h.account p]
  | thrown =>
    obtain ⟨p, hp, rfl⟩ := Option.map_eq_some_iff.mp hs
    refine h.change (h.opened p hp) rfl h.lt (fun q hq => ⟨rfl, rfl⟩) (fun q hq => ?_) (h.account p)
      fun _ _ => hc p hp
    rw [hp]
    simp only [Option.some.injEq, reduceCtorEq, false_iff]
    exact fun he => hq he.symm
  | message p isText data =>
    simp only [SockRun.step, Option.ite_none_right_eq_some, Option.some.injEq] at hs
    obtain ⟨⟨_, hp, _⟩, rfl⟩ := hs
    exact h.message hp isText data rfl rfl rfl
  | gone p closed =>
    simp only [SockRun.step, Option.ite_none_right_eq_some, Option.some.injEq] at hs
    obtain ⟨⟨_, hp⟩, rfl⟩ := hs
    have hleave := hself p { s.sock.peer p with readyState := if closed then .CLOSED else .CLOSING }
    refine h.change hp rfl h.lt (fun q hq => ⟨hset p _ q hq, rfl⟩) (fun _ _ => Iff.rfl) ?_
      fun hopen _ => ?_
    · exact (congrArg (fun pr : Peer => dataOf pr.handed ++ dataOf pr.msg_send_queue)
        hleave).trans (h.account p)
    · have hst := (congrArg Peer.readyState hleave).symm.trans hopen
      cases closed <;> cases hst
  | incoming a =>
    simp only [SockRun.step, Option.ite_none_right_eq_some, Option.some.injEq] at hs
    obtain ⟨_, rfl⟩ := hs
    exact h.newPeer a .OPEN

/-- The sockets that there are at first. -/
inductive Start : SockRun → Prop
  | created (type : SockType) : Start (created type)
  | connected (a : Address) : Start (connected a)

theorem ordered_start (h : Start s) : s.Ordered := by
  have hcreated : ∀ type, (created type).Ordered := fun type =>
    ⟨fun _ _ hq => (nomatch hq), fun _ hq => (nomatch hq), fun _ => rfl, fun _ _ _ => rfl, fun _ _ => rfl⟩
  cases h with
  | created type => exact hcreated type
  | connected a => exact ((hcreated .SOCK_STREAM).newPeer a .OPEN).same rfl rfl rfl rfl rfl

/-- In a run with quiet callbacks: what a WebSocket was given and what waits for it is what was
accepted; and once the "open" event is handled, all was given. -/
theorem handed_in_order (s₀ : SockRun) (h₀ : Start s₀) :
    ∀ s, Reaches step QuietOpening s₀ s → ∀ p,
      dataOf (s.sock.peer p).handed ++ dataOf (s.sock.peer p).msg_send_queue = s.accepted p ∧
      ((s.sock.peer p).readyState = .OPEN → s.opening ≠ some p →
        dataOf (s.sock.peer p).handed = s.accepted p) := by
  intro s hr p
  have h : s.Ordered := hr.invariant (ordered_start h₀) fun _ _ _ h hc hs => h.step hc hs
  refine ⟨h.account p, fun hopen hop => ?_⟩
  rw [← h.account p, h.drained p hopen hop, List.append_nil]

end SockRun

/-! ## A callback that sends -/

section Examples

open SockRun

/-- A message waits, and goes out when the connection opens. -/
def sendQueued : List Event :=
  [.call (.connect host true), .call (.sendmsg [1] none true), .opened 0, .returned]

theorem handed_in_order_queued : ∃ s, Reaches step QuietOpening (created .SOCK_STREAM) s ∧
    dataOf (s.sock.peer 0).handed = [[1]] ∧ dataOf (s.sock.peer 0).handed = s.accepted 0 := by
  have hrun : (exec step (created .SOCK_STREAM) sendQueued).map (fun s =>
      (dataOf (s.sock.peer 0).handed, (s.sock.peer 0).readyState, s.opening)) =
      some ([[1]], .OPEN, none) := by decide
  obtain ⟨s, hs, he⟩ := Option.map_eq_some_iff.mp hrun
  simp only [Prod.mk.injEq] at he
  have hmeets : Meets step QuietOpening (created .SOCK_STREAM) sendQueued := by
    refine ⟨trivial, fun s₁ h₁ => ⟨fun p hp => ?_, fun _ _ => ⟨trivial, fun _ _ => ⟨trivial, fun _ _ => trivial⟩⟩⟩⟩
    have hno : ((created .SOCK_STREAM).step (.call (.connect host true))).map (·.opening) = some none := by
      decide
    rw [h₁] at hno
    cases hno.symm.trans (congrArg some hp)
  have hreach := reaches_of_exec sendQueued hs hmeets
  refine ⟨s, hreach, he.1, (handed_in_order _ (.created .SOCK_STREAM) s hreach 0).2 he.2.1 ?_⟩
  rw [he.2.2]
  exact fun h => nomatch h

/-- The callback of the "open" event sends: its message overtakes the one that waits. -/
theorem open_callback_overtakes : ∃ s, Reaches step Any (created .SOCK_STREAM) s ∧
    (s.sock.peer 0).readyState = .OPEN ∧ s.opening = none ∧
    dataOf (s.sock.peer 0).handed = [[2], [1]] ∧ s.accepted 0 = [[1], [2]] := by
  have hrun : (exec step (created .SOCK_STREAM)
      [.call (.connect host true), .call (.sendmsg [1] none true), .opened 0,
        .call (.sendmsg [2] none true), .returned]).map (fun s =>
      ((s.sock.peer 0).readyState, s.opening, dataOf (s.sock.peer 0).handed, s.accepted 0)) =
      some (.OPEN, none, [[2], [1]], [[1], [2]]) := by decide
  obtain ⟨s, hs, he⟩ := reaches_of_map _ hrun
  simp only [Prod.mk.injEq] at he
  exact ⟨s, hs, he⟩

end Examples

end Sockfs
