-- SUMMARY: What a stream socket reads is what its WebSocket delivered, unless the first message looks like the port message.
import Emscripten.Lib.Within
import Emscripten.Sockfs.Socket

/-!
# Reading as a byte stream

The bytes in the queue are always what was delivered and not yet returned. A message with
the form of the port message never gets there if it is the first, also on a stream socket.
-/

namespace Sockfs

open Prog Machine

variable {s s' : Sock}

namespace Sock

/-- The bytes that wait to be read. -/
def unread (s : Sock) : Bytes := s.recv_queue.flatMap fun q => q.data.bytes

/-- No message in the queue is empty. -/
def Filled (s : Sock) : Prop := ∀ q ∈ s.recv_queue, q.data.byteLength ≠ 0

/-- The socket is connected and its WebSocket open. -/
def Connected (s : Sock) : Prop :=
  ∃ p, s.getPeer s.dest = some p ∧ (s.peer p).readyState = .OPEN

end Sock

/-! ## recvmsg -/

/-- The bytes that a call returned. -/
def got : Except Errno Bytes → Bytes
  | .ok bs => bs
  | .error _ => []

/-- What a read of a stream does: it returns bytes from the front of what waits, and no empty
result where it asked for bytes and is connected. -/
structure ReadsFront (s s' : Sock) (length : Int) (r : Except Errno Bytes) : Prop where
  front : got r ++ s'.unread = s.unread
  filled : s'.Filled
  type : s'.type = s.type
  nonempty : r = .ok [] → length ≠ 0 → ¬ s.Connected

variable {length : Int} {r : Except Errno Bytes}

theorem readsFront_of_error (hf : s.Filled) (e : Errno) : ReadsFront s s length (.error e) :=
  ⟨rfl, hf, rfl, fun h => nomatch h⟩

theorem readsFront_recvNothing (ht : s.type = .SOCK_STREAM) (hf : s.Filled)
    (h : (recvNothing >>= fun msg => pure (msg.elim [] View.bytes)) s = some (s', r)) :
    ReadsFront s s' length r := by
  unfold recvNothing at h
  rw [bind_assoc, gets_bind_apply, id, ht] at h
  cases hd : s.getPeer s.dest with
  | none =>
    rw [hd] at h
    cases h
    exact readsFront_of_error hf _
  | some p =>
    simp only [hd] at h
    split at h
    · next hgone =>
        cases h
        refine ⟨rfl, hf, rfl, fun _ _ => ?_⟩
        rintro ⟨q, hq, hopen⟩
        rw [hd] at hq
        cases hq
        rw [hopen] at hgone
        cases hgone
    · cases h
      exact readsFront_of_error hf _

/-- A message with a byte, of which some are asked for, gives some. -/
theorem take_ne_nil {v : View} (hv : v.byteLength ≠ 0) (hlen : 0 ≤ length) (hne : length ≠ 0) :
    v.bytes.take (min length.toNat v.byteLength) ≠ [] := by
  intro he
  have hl := congrArg List.length he
  simp only [List.length_take, View.length_bytes, List.length_nil] at hl
  omega

theorem readsFront_recvmsg (ht : s.type = .SOCK_STREAM) (hf : s.Filled) (hlen : 0 ≤ length)
    (h : (recvmsg length >>= fun msg => pure (msg.elim [] View.bytes)) s = some (s', r)) :
    ReadsFront s s' length r := by
  unfold recvmsg at h
  rw [bind_assoc, gets_bind_apply, id, bind_assoc, failIf_bind_apply] at h
  split at h
  · cases h
    exact readsFront_of_error hf _
  cases hq : s.recv_queue with
  | nil =>
    rw [hq] at h
    exact readsFront_recvNothing ht hf h
  | cons queued rest =>
    simp only [hq] at h
    rw [bind_assoc, modify_bind_apply, bind_assoc, failIf_bind_apply,
      if_neg (Int.not_lt.mpr hlen)] at h
    have hqueued : queued.data.byteLength ≠ 0 := hf queued (by simp [hq])
    have hrest : ∀ q ∈ rest, q.data.byteLength ≠ 0 := fun q hin => hf q (by simp [hq, hin])
    have hunread : s.unread = queued.data.bytes ++ rest.flatMap fun q => q.data.bytes := by
      simp [Sock.unread, hq]
    split at h
    · next hpart =>
        cases h
        refine ⟨?_, fun q hin => ?_, rfl, fun he hne => ?_⟩
        · rw [hunread]
          simp [got, Sock.unread, ← List.append_assoc]
        · rcases List.mem_cons.mp hin with rfl | hin
          · have hlt := hpart.2
            simp only [View.drop]
            omega
          · exact hrest q hin
        · refine absurd ?_ (take_ne_nil hqueued hlen hne)
          simpa using he
    · next hall =>
        cases h
        have hmin : min length.toNat queued.data.byteLength = queued.data.byteLength := by
          have hge : ¬ min length.toNat queued.data.byteLength < queued.data.byteLength :=
            fun hlt => hall ⟨ht, hlt⟩
          omega
        refine ⟨?_, hrest, rfl, fun he hne => ?_⟩
        · rw [hunread, hmin]
          have hfull : queued.data.bytes.take queued.data.byteLength = queued.data.bytes :=
            List.take_of_length_le (by simp)
          simp [got, Sock.unread, hfull]
        · refine absurd ?_ (take_ne_nil hqueued hlen hne)
          simpa using he

theorem readsFront_read (ht : s.type = .SOCK_STREAM) (hf : s.Filled)
    (h : read length s = some (s', r)) : ReadsFront s s' length r := by
  unfold read at h
  rw [failIf_bind_apply] at h
  split at h
  · cases h
    exact readsFront_of_error hf _
  · next hlen => exact readsFront_recvmsg ht hf (Int.not_lt.mp hlen) h

theorem readsFront_recvfrom (ht : s.type = .SOCK_STREAM) (hf : s.Filled) (hlen : 0 ≤ length)
    (h : recvfrom length s = some (s', r)) : ReadsFront s s' length r :=
  readsFront_recvmsg ht hf hlen h

/-- The value of a part, in a constructor. -/
theorem run_map {α β : Type} {m : Sys α} {f : α → β} {r : Except Errno β}
    (h : (m >>= fun a => pure (f a)) s = some (s', r)) :
    ∃ r', m s = some (s', r') ∧ r = r'.map f := by
  cases r with
  | ok b =>
    obtain ⟨a, s₁, hm, hk⟩ := bind_ok_iff.mp h
    cases hk
    exact ⟨.ok a, hm, rfl⟩
  | error e =>
    rcases bind_error_iff.mp h with hm | ⟨a, s₁, hm, hk⟩
    · exact ⟨.error e, hm, rfl⟩
    · cases hk

/-- What keeps the queue of received messages. -/
def KeepsQueue (s s' : Sock) : Prop := s'.recv_queue = s.recv_queue ∧ s'.type = s.type

instance : IsPreorder Sock KeepsQueue where
  refl _ := ⟨rfl, rfl⟩
  trans _ _ _ h h' := ⟨h'.1.trans h.1, h'.2.trans h.2⟩

variable (a : Address) {u : SockRun}

theorem keeps_createPeer (reachable : Bool) : Within KeepsQueue (createPeer a reachable) := by
  refine .bind .failIf fun _ => .bind .gets fun _ => .bind (.modify fun s => ?_) fun _ => .pure
  exact ⟨rfl, rfl⟩

theorem keeps_bind : Within KeepsQueue (Sockfs.bind a) :=
  .bind .gets fun _ => .bind .failIf fun _ => .modify fun _ => ⟨rfl, rfl⟩

theorem keeps_listen (isNode : Bool) : Within KeepsQueue (listen isNode) :=
  .bind .failIf fun _ => .bind .gets fun _ => .bind .failIf fun _ => .modify fun _ => ⟨rfl, rfl⟩

theorem keeps_connect (reachable : Bool) : Within KeepsQueue (connect a reachable) := by
  refine .bind .gets fun s => .bind .failIf fun _ => ?_
  split
  · exact .fail
  · exact .bind (keeps_createPeer a reachable) fun _ => .modify fun _ => ⟨rfl, rfl⟩

theorem keeps_queuePeer (dest : Option PeerId) (reachable : Bool) :
    Within KeepsQueue (queuePeer a dest reachable) := by
  refine .bind .gets fun s => ?_
  split
  · exact .ite (fun _ => keeps_createPeer a reachable) fun _ => .pure
  · exact keeps_createPeer a reachable

theorem keeps_transmit (data : Bytes) (a : Address) (dest : Option PeerId) (reachable : Bool) :
    Within KeepsQueue (transmit data a dest reachable) := by
  refine .bind .gets fun s => ?_
  split
  · exact .bind (.modify fun _ => ⟨rfl, rfl⟩) fun _ => .pure
  · exact .bind (keeps_queuePeer a dest reachable) fun _ =>
      .bind (.modify fun _ => ⟨rfl, rfl⟩) fun _ => .pure

theorem keeps_sendmsg (data : Bytes) (target : Option Address) (reachable : Bool) :
    Within KeepsQueue (sendmsg data target reachable) := by
  refine .bind .gets fun s => .bind .failIf fun _ => .bind .failIf fun _ => ?_
  split
  · exact keeps_transmit data _ _ reachable
  · exact .fail

/-! ## Runs -/

namespace SockRun

variable {s t : SockRun} {e : Event}

/-- A length that is no negative number, as it is where the 32-bit length is from `2^31` on. -/
def Call.InRange : Call → Prop
  | .recvfrom length => 0 ≤ length
  | _ => True

/-- Messages are binary, the first of a WebSocket has not the form of the port message, and
`recvfrom` is called with lengths that are not negative. -/
def PlainBytes (s : SockRun) : Event → Prop
  | .message p isText data => isText = false ∧ ((s.sock.peer p).first = true → ¬ PortMessage data)
  | .call c => Call.InRange c
  | _ => True

structure Streams (s : SockRun) : Prop where
  type : s.sock.type = .SOCK_STREAM
  filled : s.sock.Filled
  account : s.returned ++ s.sock.unread = s.delivered

/-- A call that returns no bytes. -/
theorem Streams.keep (h : s.Streams) (hk : KeepsQueue s.sock u.sock) (hr : u.returned = s.returned)
    (hd : u.delivered = s.delivered) : u.Streams := by
  obtain ⟨hqueue, htype⟩ := hk
  refine ⟨htype.trans h.type, ?_, ?_⟩
  · unfold Sock.Filled
    rw [hqueue]
    exact h.filled
  · unfold Sock.unread
    rw [hr, hd, hqueue]
    exact h.account

theorem Streams.read (h : s.Streams) {sock : Sock} {length : Int} {r : Except Errno Bytes}
    (hr : ReadsFront s.sock sock length r) (hs : u.sock = sock) (hu : u.returned = s.returned ++ got r)
    (hd : u.delivered = s.delivered) : u.Streams := by
  refine ⟨?_, ?_, ?_⟩
  · rw [hs, hr.type, h.type]
  · rw [hs]
    exact hr.filled
  · rw [hs, hu, hd, List.append_assoc, hr.front, h.account]

theorem note_same (s : SockRun) (sock : Sock) (c : Call) (r : Except Errno Reply) :
    (s.note sock c r).sock = sock ∧ (s.note sock c r).delivered = s.delivered := by
  unfold note
  split
  · split <;> exact ⟨rfl, rfl⟩
  · exact ⟨rfl, rfl⟩
  · exact ⟨rfl, rfl⟩

/-- What a read is noted with. -/
theorem note_bytes (s : SockRun) (sock : Sock) {c : Call} (hc : ∀ data target k, c ≠ .sendmsg data target k)
    (r : Except Errno Bytes) : (s.note sock c (r.map .bytes)).returned = s.returned ++ got r := by
  cases c with
  | sendmsg data target k => exact absurd rfl (hc data target k)
  | _ => cases r <;> simp [note, Except.map, got]

/-- What a call that does not read is noted with. -/
theorem note_other (s : SockRun) (sock : Sock) (c : Call) {r : Except Errno Reply}
    (hr : ∀ bs, r ≠ .ok (.bytes bs)) : (s.note sock c r).returned = s.returned := by
  unfold note
  split
  · split <;> rfl
  · next bs _ => exact absurd rfl (hr bs)
  · rfl

theorem map_ne_bytes {α : Type} {f : α → Reply} (hf : ∀ a bs, f a ≠ .bytes bs) (r : Except Errno α)
    (bs : Bytes) : r.map f ≠ .ok (.bytes bs) := by
  intro h
  cases r with
  | ok a => exact hf a bs (Except.ok.inj h)
  | error e => cases h

theorem Streams.call (h : s.Streams) {c : Call} (hc : Call.InRange c) {sock : Sock}
    {r : Except Errno Reply} (hrun : c.run s.sock = some (sock, r)) : (s.note sock c r).Streams := by
  obtain ⟨hsock, hdelivered⟩ := note_same s sock c r
  have hkeep : ∀ {α : Type} {m : Sys α} {f : α → Reply}, Within KeepsQueue m →
      (∀ a bs, f a ≠ .bytes bs) → (m >>= fun a => pure (f a)) s.sock = some (sock, r) →
      (s.note sock c r).Streams := by
    intro α m f hm hf hr
    obtain ⟨r', hr', rfl⟩ := run_map hr
    exact h.keep (hsock.symm ▸ hm _ _ _ hr') (note_other s sock c (map_ne_bytes hf r')) hdelivered
  have hread : ∀ {m : Sys Bytes} {length : Int}, (∀ data target k, c ≠ .sendmsg data target k) →
      (∀ s' r, m s.sock = some (s', r) → ReadsFront s.sock s' length r) →
      (m >>= fun a => pure (.bytes a)) s.sock = some (sock, r) → (s.note sock c r).Streams := by
    intro m length hno hm hr
    obtain ⟨r', hr', rfl⟩ := run_map hr
    exact h.read (hm _ _ hr') hsock (note_bytes s sock hno r') hdelivered
  cases c with
  | bind a => exact hkeep (keeps_bind a) (by simp) hrun
  | listen isNode => exact hkeep (keeps_listen isNode) (by simp) hrun
  | connect a reachable => exact hkeep (keeps_connect a reachable) (by simp) hrun
  | sendmsg data target reachable =>
    exact hkeep (keeps_sendmsg data target reachable) (by simp) hrun
  | read length =>
    exact hread (by simp) (fun _ _ hr => readsFront_read h.type h.filled hr) hrun
  | recvfrom length =>
    exact hread (by simp)
      (fun _ _ hr => readsFront_recvfrom h.type h.filled hc hr) hrun
  | fionread => exact hkeep .gets (by simp) hrun

/-- A message that is not taken for the port message is queued whole. -/
theorem Streams.message (h : s.Streams) {p : PeerId} {data : Bytes}
    (hport : (s.sock.peer p).first = true → ¬ PortMessage data)
    (hs : u.sock = s.sock.handleMessage p false data) (hr : u.returned = s.returned)
    (hd : u.delivered = s.delivered ++ data) : u.Streams := by
  unfold Sock.handleMessage at hs
  split at hs
  · next hempty =>
      refine h.keep (hs ▸ ⟨rfl, rfl⟩) hr ?_
      rw [hd, hempty.2, List.append_nil]
  · next hsome =>
      have hdata : data ≠ [] := fun he => hsome ⟨by decide, he⟩
      dsimp only at hs
      rw [if_neg fun hp => hport hp.1 hp.2] at hs
      refine ⟨?_, ?_, ?_⟩
      · rw [hs]
        exact h.type
      · rw [hs]
        intro q hq
        rcases List.mem_append.mp hq with hq | hq
        · exact h.filled q hq
        · rw [List.mem_singleton.mp hq]
          exact fun hl => hdata (List.length_eq_zero_iff.mp hl)
      · rw [hr, hd, ← h.account, hs]
        simp [Sock.unread, Sock.setPeer]

theorem Streams.step (h : s.Streams) (hc : s.PlainBytes e) (hs : s.step e = some t) : t.Streams := by
  cases e with
  | call c =>
    obtain ⟨⟨sock, r⟩, hrun, rfl⟩ := Option.map_eq_some_iff.mp hs
    exact h.call hc hrun
  | opened p =>
    simp only [SockRun.step, Option.ite_none_right_eq_some, Option.some.injEq] at hs
    obtain ⟨_, rfl⟩ := hs
    exact h.keep ⟨rfl, rfl⟩ rfl rfl
  | returned =>
    obtain ⟨p, _, rfl⟩ := Option.map_eq_some_iff.mp hs
    exact h.keep ⟨rfl, rfl⟩ rfl rfl
  | thrown =>
    obtain ⟨p, _, rfl⟩ := Option.map_eq_some_iff.mp hs
    exact h.keep ⟨rfl, rfl⟩ rfl rfl
  | message p isText data =>
    obtain ⟨rfl, hport⟩ := hc
    simp only [SockRun.step, Option.ite_none_right_eq_some, Option.some.injEq] at hs
    obtain ⟨_, rfl⟩ := hs
    exact h.message hport rfl rfl rfl
  | gone p closed =>
    simp only [SockRun.step, Option.ite_none_right_eq_some, Option.some.injEq] at hs
    obtain ⟨_, rfl⟩ := hs
    exact h.keep ⟨rfl, rfl⟩ rfl rfl
  | incoming a =>
    simp only [SockRun.step, Option.ite_none_right_eq_some, Option.some.injEq] at hs
    obtain ⟨_, rfl⟩ := hs
    exact h.keep ⟨rfl, rfl⟩ rfl rfl

/-- The stream sockets that there are at first. -/
inductive StreamStart : SockRun → Prop
  | created : StreamStart (created .SOCK_STREAM)
  | connected (a : Address) : StreamStart (connected a)

theorem streams_start (h : StreamStart s) : s.Streams := by
  cases h <;> exact ⟨rfl, fun _ hq => (nomatch hq), rfl⟩

/-- In a run on plain bytes, what reads returned and what waits is what was delivered; and a read
that asks for bytes gets some, or an error, while the connection is open. -/
theorem reads_are_stream (s₀ : SockRun) (h₀ : StreamStart s₀) :
    ∀ s, Reaches step PlainBytes s₀ s → s.returned <+: s.delivered ∧
      s.returned ++ s.sock.unread = s.delivered ∧
      ∀ (length : Int) (c : Call), c = .read length ∨ c = .recvfrom length → length ≠ 0 →
        Call.InRange c → s.sock.Connected → ∀ s', c.run s.sock ≠ some (s', .ok (.bytes [])) := by
  intro s hr
  have h : s.Streams := hr.invariant (streams_start h₀) fun _ _ _ h hc hs => h.step hc hs
  refine ⟨⟨_, h.account⟩, h.account, fun length c hc hne hrange hopen s' hrun => ?_⟩
  have hread : ∀ {m : Sys Bytes}, (∀ s' r, m s.sock = some (s', r) → ReadsFront s.sock s' length r) →
      (m >>= fun a => pure (Reply.bytes a)) s.sock = some (s', .ok (.bytes [])) → False := by
    intro m hm hr
    obtain ⟨r', hr', he⟩ := run_map hr
    cases r' with
    | error e => cases he
    | ok bs =>
      cases he
      exact (hm _ _ hr').nonempty rfl hne hopen
  rcases hc with rfl | rfl
  · exact hread (fun _ _ hr => readsFront_read h.type h.filled hr) hrun
  · exact hread (fun _ _ hr => readsFront_recvfrom h.type h.filled hrange hr) hrun

end SockRun

/-! ## A message of ten bytes -/

section Examples

open SockRun

def host : Address := ⟨"10.0.0.1", 8080⟩

def readPart : List Event := [.message 0 false [1, 2, 3], .call (.read 2)]

/-- Two of the three bytes of a message are read. -/
theorem reads_are_stream_part : ∃ s, Reaches step PlainBytes (connected host) s ∧
    s.returned = [1, 2] ∧ s.returned <+: s.delivered := by
  have hrun : (exec step (connected host) readPart).map (·.returned) = some [1, 2] := by decide
  obtain ⟨s, hs, he⟩ := Option.map_eq_some_iff.mp hrun
  have hmeets : Meets step PlainBytes (connected host) readPart :=
    ⟨⟨rfl, fun _ => by decide⟩, fun _ _ => ⟨trivial, fun _ _ => trivial⟩⟩
  have hreach := reaches_of_exec readPart hs hmeets
  exact ⟨s, hreach, he, (reads_are_stream _ (.connected host) s hreach).1⟩

/-- The first message has the form of the port message: its bytes are lost. -/
theorem port_message_lost : ∃ s, Reaches step Any (connected host) s ∧
    ¬ s.returned <+: s.delivered := by
  have hrun : (exec step (connected host)
      [.message 0 false [255, 255, 255, 255, 112, 111, 114, 116, 0, 80], .message 0 false [7],
        .call (.read 10)]).map (fun s => decide (s.returned <+: s.delivered)) = some false := by
    decide
  obtain ⟨s, hs, he⟩ := reaches_of_map _ hrun
  exact ⟨s, hs, of_decide_eq_false he⟩

end Examples

end Sockfs
