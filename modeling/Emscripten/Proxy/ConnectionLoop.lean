-- SUMMARY: The message loop of a proxy connection: what it reads and what it hands on, for every cut of the stream.
import Emscripten.Proxy.Frames

/-!
# The message loop of a connection

`connection_thread` appends what `recv` returns to `fragmentData` and takes messages off
its front for as long as there are complete ones. The handlers behind
`ProcessWebSocketMessage` are not run here: the loop records the payloads that it hands on.
-/

namespace Proxy

open Words

/-! ## One message -/

/-- Why no message is taken: there are not enough bytes, or an access is outside of them. -/
inductive Leave
  | wait
  | outside

def inside {α : Type} : Option α → Except Leave α
  | some a => .ok a
  | none => .error .outside

structure Taken where
  opcode : Nat
  payload : List UInt8
  fragmentData : List UInt8

/-- The rest of a pass, once the message is found to be complete. The payload is unmasked in place,
and is handed on only where it is that of a binary message. -/
def readMessage (fragmentData : List UInt8) (neededBytes : Nat) : Except Leave Taken := do
  let header ← inside (readHeader fragmentData)
  let payloadLength ← inside (WebSocketMessagePayloadLength fragmentData)
  let payload ← inside (WebSocketMessageData fragmentData)
  let unmasked ←
    if header.mask then do
      let key ← inside (WebSocketMessageMaskingKey fragmentData)
      let mem ← inside (WebSocketMessageUnmaskPayload (fragmentData.drop payload) payloadLength key)
      pure (fragmentData.take payload ++ mem)
    else pure fragmentData
  let handed ←
    if header.opcode = 0x02 then
      if payload + payloadLength ≤ unmasked.length then
        pure ((unmasked.drop payload).take payloadLength)
      else throw .outside
    else pure []
  pure ⟨header.opcode, handed, unmasked.drop neededBytes⟩

/-- One pass of the inner loop. -/
def takeMessage (fragmentData : List UInt8) : Except Leave Taken :=
  if fragmentData = [] then throw .wait
  else do
    let hasFullHeader ← inside (WebSocketHasFullHeader fragmentData fragmentData.length)
    if !hasFullHeader then throw .wait
    else
      let neededBytes ← inside (WebSocketFullMessageSize fragmentData)
      if fragmentData.length < neededBytes then throw .wait
      else readMessage fragmentData neededBytes

/-! ## The loop -/

/-- The locals of the loop, and what it has handed to `ProcessWebSocketMessage`. -/
structure Loop where
  fragmentData : List UInt8
  connectionAlive : Bool
  handed : List (List UInt8)

def Loop.start : Loop := ⟨[], true, []⟩

/-- A message other than a binary one ends the connection; the inner loop goes on all the same. -/
def Loop.after (l : Loop) (m : Taken) : Loop where
  fragmentData := m.fragmentData
  connectionAlive := l.connectionAlive && m.opcode == 0x02
  handed := if m.opcode = 0x02 then l.handed ++ [m.payload] else l.handed

inductive Outcome
  | outside
  | hangs
  | rests (l : Loop)

/-- `while (!fragmentData.empty())`. A message whose size came out as zero is taken forever. -/
def drain : Nat → Loop → Outcome
  | 0, _ => .hangs
  | passes + 1, l =>
    match takeMessage l.fragmentData with
    | .error .wait => .rests l
    | .error .outside => .outside
    | .ok m => drain passes (l.after m)

def BUFFER_SIZE : Nat := 1024

/-- What one `recv` returns. -/
structure Chunk where
  bytes : List UInt8
  nonempty : bytes ≠ []
  small : bytes.length ≤ BUFFER_SIZE

/-- `while (connectionAlive)`: behind the last chunk `recv` returns 0, or fails. -/
def connection_thread : List Chunk → Loop → Outcome
  | [], l => .rests l
  | c :: cs, l =>
    let fragmentData := l.fragmentData ++ c.bytes
    match drain (fragmentData.length + 1) { l with fragmentData } with
    | .rests l' => if l'.connectionAlive then connection_thread cs l' else .rests l'
    | outcome => outcome

def stream (cs : List Chunk) : List UInt8 := cs.flatMap Chunk.bytes

/-- Every access is inside the bytes received. -/
def Safe (cs : List Chunk) : Prop := connection_thread cs .start ≠ .outside

/-- A stream of complete binary frames is handed on, payload by payload. -/
def Delivers (cs : List Chunk) : Prop :=
  ∀ frames : List Frame, stream cs = frames.flatMap Frame.bytes →
    ∃ l, connection_thread cs .start = .rests l ∧ l.handed = frames.map Frame.payload

/-! ## What a pass does -/

/-- The size that the source computes is that of bytes which are all there. -/
def Complete (data : List UInt8) : Prop :=
  ∃ size, WebSocketFullMessageSize data = some size ∧ size ≤ data.length

/-- The length can be read where the header can, and no size that wraps is used for an access. -/
def Legible (data : List UInt8) : Prop :=
  ∀ h, readHeader data = some h → ∃ len, WebSocketMessagePayloadLength data = some len ∧
    (Complete data → h.headerBytes + len < 2 ^ 64 ∨ h.mask = false ∧ h.opcode ≠ 0x02)

/-- A size that wraps is that of more bytes than there are. -/
def Bounded (data : List UInt8) : Prop :=
  ∀ h len, readHeader data = some h → WebSocketMessagePayloadLength data = some len →
    h.headerBytes + len < 2 ^ 64 ∨ data.length < h.headerBytes + len

variable {data : List UInt8} {h : WebSocketMessageHeader} {len size : Nat}

theorem complete_iff (hread : readHeader data = some h)
    (hlen : WebSocketMessagePayloadLength data = some len) :
    Complete data ↔ (h.headerBytes + len) % 2 ^ 64 ≤ data.length := by
  simp [Complete, fullMessageSize_eq hread, hlen]

/-- A header of one class is complete before its message is. -/
theorem hasFullHeader_eq (hread : readHeader data = some h) :
    ∃ full, WebSocketHasFullHeader data data.length = some full ∧
      (full = false → h.extBytes = 0 ∧ data.length < h.headerBytes) := by
  have hlen : ¬ data.length < 2 := fun hshort => by simp [readHeader_eq_none.mpr hshort] at hread
  simp only [WebSocketHasFullHeader, if_neg hlen, hread, bind, Option.bind_some,
    WebSocketMessageHeader.headerBytes, WebSocketMessageHeader.extBytes]
  split
  · exact ⟨_, rfl, by simp⟩
  · exact ⟨_, rfl, by simp⟩
  · exact ⟨_, rfl, by simp⟩

theorem takeMessage_short (hread : readHeader data = none) : takeMessage data = .error .wait := by
  have hlen := readHeader_eq_none.mp hread
  unfold takeMessage
  split
  · rfl
  · simp [WebSocketHasFullHeader, hlen, inside, bind, Except.bind, throw, throwThe, MonadExceptOf.throw]

theorem takeMessage_cut (hread : readHeader data = some h)
    (hlen : WebSocketMessagePayloadLength data = none) : takeMessage data = .error .outside := by
  obtain ⟨full, hfull, himp⟩ := hasFullHeader_eq hread
  have hext := (payloadLength_eq_none hread).mp hlen
  have hne : data ≠ [] := fun hnil => by simp [hnil, readHeader] at hread
  have htrue : full = true := by
    cases full with
    | true => rfl
    | false =>
      have hlong : ¬ data.length < 2 := fun hshort => by
        simp [readHeader_eq_none.mpr hshort] at hread
      have hzero := (himp rfl).1
      omega
  simp [takeMessage, hne, hfull, htrue, fullMessageSize_eq hread, hlen, inside, bind, Except.bind]

/-- With its length, a message is waited for, or is read. -/
theorem takeMessage_eq (hread : readHeader data = some h)
    (hlen : WebSocketMessagePayloadLength data = some len) : takeMessage data =
      if data.length < (h.headerBytes + len) % 2 ^ 64 then .error .wait
      else readMessage data ((h.headerBytes + len) % 2 ^ 64) := by
  obtain ⟨full, hfull, himp⟩ := hasFullHeader_eq hread
  have hne : data ≠ [] := fun hnil => by simp [hnil, readHeader] at hread
  cases full with
  | true =>
    simp [takeMessage, hne, hfull, fullMessageSize_eq hread, hlen, inside, bind, Except.bind, throw,
      throwThe, MonadExceptOf.throw]
  | false =>
    obtain ⟨hext, hshort⟩ := himp rfl
    have hkey : h.keyBytes ≤ 4 := by
      unfold WebSocketMessageHeader.keyBytes
      split <;> simp
    have hhead : h.headerBytes ≤ 6 := by
      unfold WebSocketMessageHeader.headerBytes
      omega
    have h7 := readHeader_payloadLength_lt hread
    have heq : h.payloadLength = len := by
      simpa [payloadLength_of_extBytes hread hext] using hlen
    rw [if_pos (by omega)]
    simp [takeMessage, hne, hfull, inside, bind, Except.bind, throw, throwThe, MonadExceptOf.throw]

theorem maskingKey_eq_none (hread : readHeader data = some h) (hmask : h.mask = true) :
    WebSocketMessageMaskingKey data = none ↔ data.length < h.headerBytes := by
  simp only [WebSocketMessageMaskingKey, hread, bind, Option.bind_some, hmask, if_true,
    WebSocketMessageHeader.headerBytes, WebSocketMessageHeader.keyBytes, WebSocketMessageHeader.extBytes]
  split <;> exact load_eq_none

/-- A message that is there with all its bytes is read. -/
theorem readMessage_ok (hread : readHeader data = some h)
    (hlen : WebSocketMessagePayloadLength data = some len) (hall : h.headerBytes + len ≤ data.length) :
    ∃ payload, readMessage data (h.headerBytes + len) =
      .ok ⟨h.opcode, payload, data.drop (h.headerBytes + len)⟩ := by
  have hbody : len ≤ (data.drop h.headerBytes).length := by simp; omega
  cases hmask : h.mask with
  | false =>
    simp only [readMessage, hread, hlen, webSocketMessageData_eq hread, inside, bind, Except.bind,
      hmask, pure, Except.pure, if_pos hall, Bool.false_eq_true, if_false]
    split <;> exact ⟨_, rfl⟩
  | true =>
    have hsome : WebSocketMessageMaskingKey data ≠ none := fun hnone => by
      have hshort := (maskingKey_eq_none hread hmask).mp hnone
      omega
    obtain ⟨key, hkey⟩ := Option.ne_none_iff_exists'.mp hsome
    have hmem : (data.take h.headerBytes ++ (xorFrom (toLE 4 key) 0
        ((data.drop h.headerBytes).take len) ++ (data.drop h.headerBytes).drop len)).length =
        data.length := by
      simp
      omega
    have hrest : (data.take h.headerBytes ++ (xorFrom (toLE 4 key) 0
        ((data.drop h.headerBytes).take len) ++ (data.drop h.headerBytes).drop len)).drop
        (h.headerBytes + len) = data.drop (h.headerBytes + len) := by
      rw [← List.append_assoc, List.drop_left' (by simp; omega), List.drop_drop]
    simp only [readMessage, hread, hlen, webSocketMessageData_eq hread, inside, bind, Except.bind,
      hmask, if_true, hkey, unmaskPayload_eq, if_pos hbody, pure, Except.pure, hmem, if_pos hall, hrest]
    split <;> exact ⟨_, rfl⟩

/-- With a size that wraps, the payload is used only where it is unmasked or handed on. -/
theorem readMessage_skip (hread : readHeader data = some h)
    (hlen : WebSocketMessagePayloadLength data = some len) (hmask : h.mask = false)
    (hop : h.opcode ≠ 0x02) (size : Nat) : readMessage data size = .ok ⟨h.opcode, [], data.drop size⟩ := by
  simp [readMessage, hread, hlen, webSocketMessageData_eq hread, inside, bind, Except.bind, hmask, hop,
    pure, Except.pure]

theorem readMessage_outside (hread : readHeader data = some h)
    (hlen : WebSocketMessagePayloadLength data = some len) (hall : data.length < h.headerBytes + len)
    (huse : h.mask = true ∨ h.opcode = 0x02) (size : Nat) :
    readMessage data size = .error .outside := by
  cases hmask : h.mask with
  | false =>
    have hop : h.opcode = 0x02 := huse.resolve_left (by simp [hmask])
    simp [readMessage, hread, hlen, webSocketMessageData_eq hread, inside, bind, Except.bind, hmask,
      hop, pure, Except.pure, Nat.not_le_of_lt hall, throw, throwThe, MonadExceptOf.throw]
  | true =>
    cases hkey : WebSocketMessageMaskingKey data with
    | none =>
      simp [readMessage, hread, hlen, webSocketMessageData_eq hread, inside, bind, Except.bind,
        hmask, hkey]
    | some key =>
      have hhead : ¬ data.length < h.headerBytes := fun hshort => by
        simp [(maskingKey_eq_none hread hmask).mpr hshort] at hkey
      have hbody : ¬ len ≤ (data.drop h.headerBytes).length := by simp; omega
      simp only [readMessage, hread, hlen, webSocketMessageData_eq hread, inside, bind, Except.bind,
        hmask, if_true, hkey, unmaskPayload_eq, if_neg hbody]

theorem takeMessage_wait (hleg : Legible data) (hc : ¬ Complete data) :
    takeMessage data = .error .wait := by
  cases hread : readHeader data with
  | none => exact takeMessage_short hread
  | some h =>
    obtain ⟨len, hlen, -⟩ := hleg h hread
    rw [takeMessage_eq hread hlen, if_pos (Nat.lt_of_not_le fun hle => hc ?_)]
    exact (complete_iff hread hlen).mpr hle

/-- A pass makes an access outside where the message is not legible, and only there. -/
theorem pass_cases (hb : Bounded data) :
    (¬ Legible data ∧ takeMessage data = .error .outside) ∨
    (Legible data ∧ ¬ Complete data ∧ takeMessage data = .error .wait) ∨
    (Legible data ∧ ∃ h size payload, readHeader data = some h ∧
      WebSocketFullMessageSize data = some size ∧ size ≤ data.length ∧
      (size = 0 → h.opcode ≠ 0x02) ∧
      takeMessage data = .ok ⟨h.opcode, payload, data.drop size⟩) := by
  cases hread : readHeader data with
  | none =>
    refine .inr (.inl ⟨?_, ?_, takeMessage_short hread⟩)
    · intro h hsome
      simp [hread] at hsome
    · intro ⟨size, hsize, _⟩
      simp [WebSocketFullMessageSize, hread] at hsize
  | some h =>
    cases hlen : WebSocketMessagePayloadLength data with
    | none =>
      refine .inl ⟨fun hleg => ?_, takeMessage_cut hread hlen⟩
      obtain ⟨len, hsome, -⟩ := hleg h hread
      simp [hlen] at hsome
    | some len =>
      have htake := takeMessage_eq hread hlen
      have hiff := complete_iff hread hlen
      have hleg_iff : Legible data ↔ (Complete data →
          h.headerBytes + len < 2 ^ 64 ∨ h.mask = false ∧ h.opcode ≠ 0x02) := by
        constructor
        · intro hleg
          obtain ⟨len', hlen', himp⟩ := hleg h hread
          cases hlen.symm.trans hlen'
          exact himp
        · intro himp h' hread'
          cases hread.symm.trans hread'
          exact ⟨len, hlen, himp⟩
      by_cases hcomplete : Complete data
      · have hle := hiff.mp hcomplete
        rw [if_neg (Nat.not_lt_of_le hle)] at htake
        have hsize : WebSocketFullMessageSize data = some ((h.headerBytes + len) % 2 ^ 64) := by
          simp [fullMessageSize_eq hread, hlen]
        have hhead : 0 < h.headerBytes := by
          unfold WebSocketMessageHeader.headerBytes
          omega
        by_cases hwrap : h.headerBytes + len < 2 ^ 64
        · rw [Nat.mod_eq_of_lt hwrap] at hle htake hsize
          obtain ⟨payload, hmsg⟩ := readMessage_ok hread hlen hle
          refine .inr (.inr ⟨hleg_iff.mpr fun _ => .inl hwrap, h, _, payload, rfl, hsize, hle, ?_,
            htake.trans hmsg⟩)
          omega
        · have hshort := (hb h len hread hlen).resolve_left hwrap
          by_cases huse : h.mask = true ∨ h.opcode = 0x02
          · refine .inl ⟨fun hleg => ?_, htake.trans (readMessage_outside hread hlen hshort huse _)⟩
            cases (hleg_iff.mp hleg hcomplete).resolve_left hwrap with
            | intro hmask hop => simp [hmask, hop] at huse
          · simp only [not_or, Bool.not_eq_true] at huse
            exact .inr (.inr ⟨hleg_iff.mpr fun _ => .inr huse, h, _, [], rfl, hsize, hle,
              fun _ => huse.2, htake.trans (readMessage_skip hread hlen huse.1 huse.2 _)⟩)
      · have hleg := hleg_iff.mpr fun hc => absurd hc hcomplete
        exact .inr (.inl ⟨hleg, hcomplete, takeMessage_wait hleg hcomplete⟩)

/-- A frame at the front is taken, and its payload is unmasked. -/
theorem takeMessage_frame (f : Frame) (more : List UInt8) :
    takeMessage (f.bytes ++ more) = .ok ⟨0x02, f.payload, more⟩ := by
  have hread := f.readHeader_bytes more
  have hlen := f.payloadLength_bytes more
  have hdrop := f.drop_headerBytes more
  have hsize := f.length_bytes
  have hlt := f.length_bytes_lt
  have htake := takeMessage_eq hread hlen
  rw [← hsize, Nat.mod_eq_of_lt hlt, if_neg (by simp)] at htake
  have hop : f.header.opcode = 0x02 := rfl
  have hrest : (f.bytes ++ more).drop f.bytes.length = more := List.drop_left
  have hbody : ∀ front : List UInt8, front.length = f.header.headerBytes →
      (front ++ (f.payload ++ more)).drop f.bytes.length = more := by
    intro front hfront
    rw [hsize, ← List.append_assoc, List.drop_left' (by simp [hfront])]
  have hall : f.header.headerBytes + f.payload.length ≤ (f.bytes ++ more).length := by simp [hsize]
  rw [htake]
  cases hkey : f.key with
  | none =>
    have hmask : f.header.mask = false := by simp [Frame.header, hkey]
    have hpayload : f.maskedPayload = f.payload := by simp [Frame.maskedPayload, hkey]
    simp only [readMessage, hread, hlen, webSocketMessageData_eq hread, inside, bind, Except.bind,
      hmask, Bool.false_eq_true, if_false, pure, Except.pure, hop, if_true, if_pos hall, hdrop,
      hpayload, hrest, List.take_left]
  | some k =>
    have hmask : f.header.mask = true := by simp [Frame.header, hkey]
    have hpayload : f.maskedPayload = xorFrom k 0 f.payload := by simp [Frame.maskedPayload, hkey]
    have hk : toLE 4 (ofLE k) = k := by simpa [f.key_length k hkey] using toLE_ofLE k
    have hmem : (xorFrom k 0 f.payload ++ more).take f.payload.length = xorFrom k 0 f.payload := by
      rw [List.take_left' (by simp)]
    have hback : (xorFrom k 0 f.payload ++ more).drop f.payload.length = more := by
      rw [List.drop_left' (by simp)]
    have hfront : ((f.bytes ++ more).take f.header.headerBytes).length = f.header.headerBytes := by
      simp [hsize]
      omega
    have hthere : f.payload.length ≤ (xorFrom k 0 f.payload ++ more).length := by simp
    generalize hfr : (f.bytes ++ more).take f.header.headerBytes = front at hfront
    have hall' : f.header.headerBytes + f.payload.length ≤
        (front ++ (f.payload ++ more)).length := by
      simp [hfront]
    have hpart : ((front ++ (f.payload ++ more)).drop f.header.headerBytes).take f.payload.length =
        f.payload := by
      rw [List.drop_left' hfront, List.take_left]
    simp only [readMessage, hread, hlen, webSocketMessageData_eq hread, inside, bind, Except.bind,
      hmask, if_true, f.maskingKey_bytes more hkey, hdrop, hpayload, unmaskPayload_eq, if_pos hthere,
      hmem, hk, xorFrom_xorFrom, hback, hfr, pure, Except.pure, hop, if_pos hall', hpart, hbody _ hfront]

/-! ## Where messages start -/

/-- What is left of `data` behind some of the complete messages at its front. -/
inductive Head (data : List UInt8) : List UInt8 → Prop
  | front : Head data data
  | next {b : List UInt8} {size : Nat} (h : Head data b)
      (hsize : WebSocketFullMessageSize b = some size) (hle : size ≤ b.length) :
      Head data (b.drop size)

/-- The complete messages at the front are all binary. -/
def Alive (data : List UInt8) : Prop :=
  ∀ b h, Head data b → Complete b → readHeader b = some h → h.opcode = 0x02

variable {l : Loop} {cs : List Chunk} {rest more : List UInt8} {c : Chunk}

namespace Head

variable {b b' : List UInt8}

theorem trans (h : Head data b) (h' : Head b b') : Head data b' := by
  induction h' with
  | front => exact h
  | next _ hsize hle ih => exact ih.next hsize hle

/-- The first message is that of the front. -/
theorem cases_front (h : Head data b) : b = data ∨
    ∃ size, WebSocketFullMessageSize data = some size ∧ size ≤ data.length ∧
      Head (data.drop size) b := by
  induction h with
  | front => exact .inl rfl
  | next hb hsize hle ih =>
    cases ih with
    | inl heq =>
      subst heq
      exact .inr ⟨_, hsize, hle, .front⟩
    | inr hfirst =>
      obtain ⟨first, hfirst, hfit, hrest⟩ := hfirst
      exact .inr ⟨first, hfirst, hfit, hrest.next hsize hle⟩

theorem eq_of_not_complete (h : Head data b) (hc : ¬ Complete data) : b = data := by
  cases h.cases_front with
  | inl heq => exact heq
  | inr hfirst =>
    obtain ⟨size, hsize, hle, -⟩ := hfirst
    exact absurd ⟨size, hsize, hle⟩ hc

/-- Every head is on the way to where the messages end. -/
theorem to_rest (h : Head data b) (hrest : Head data rest) (hstop : ¬ Complete rest) : Head b rest := by
  induction h with
  | front => exact hrest
  | next _ hsize hle ih =>
    cases ih.cases_front with
    | inl heq => exact absurd ⟨_, heq ▸ hsize, heq ▸ hle⟩ hstop
    | inr hfirst =>
      obtain ⟨size, hsize', -, hafter⟩ := hfirst
      cases hsize.symm.trans hsize'
      exact hafter

end Head

/-! ### More bytes behind -/

theorem fullMessageSize_append (hsize : WebSocketFullMessageSize data = some size)
    (more : List UInt8) : WebSocketFullMessageSize (data ++ more) = some size := by
  cases hread : readHeader data with
  | none => simp [WebSocketFullMessageSize, hread] at hsize
  | some h =>
    rw [fullMessageSize_eq hread] at hsize
    obtain ⟨len, hlen, hsum⟩ := Option.map_eq_some_iff.mp hsize
    rw [fullMessageSize_eq (readHeader_append hread more), payloadLength_append hlen more]
    exact congrArg some hsum

theorem Complete.append (hc : Complete data) (more : List UInt8) : Complete (data ++ more) := by
  obtain ⟨size, hsize, hle⟩ := hc
  exact ⟨size, fullMessageSize_append hsize more, by simp; omega⟩

/-- Behind a legible message that is complete, more bytes change nothing. -/
theorem Legible.append (hl : Legible data) (hc : Complete data) (more : List UInt8) :
    Legible (data ++ more) := by
  intro h hread
  obtain ⟨h', hread'⟩ : ∃ h', readHeader data = some h' := by
    obtain ⟨size, hsize, -⟩ := hc
    apply Option.ne_none_iff_exists'.mp
    intro hnone
    simp [WebSocketFullMessageSize, hnone] at hsize
  obtain ⟨len, hlen, himp⟩ := hl h' hread'
  cases (readHeader_append hread' more).symm.trans hread
  exact ⟨len, payloadLength_append hlen more, fun _ => himp hc⟩

theorem Head.append {b : List UInt8} (h : Head data b) (more : List UInt8) :
    Head (data ++ more) (b ++ more) := by
  induction h with
  | front => exact .front
  | next _ hsize hle ih =>
    have hnext := ih.next (fullMessageSize_append hsize more) (by simp; omega)
    rwa [List.drop_append_of_le_length hle] at hnext

/-- With more bytes behind, a head is one that was passed before, or is found from where the
bytes before came to rest. -/
theorem Head.of_append {b' : List UInt8} (h : Head (data ++ more) b') (hrest : Head data rest)
    (hstop : ¬ Complete rest) : (∃ b, Head data b ∧ Complete b ∧ b' = b ++ more) ∨ Head (rest ++ more) b' := by
  have hown : ∀ b, Head data b →
      (∃ b₁, Head data b₁ ∧ Complete b₁ ∧ b ++ more = b₁ ++ more) ∨ Head (rest ++ more) (b ++ more) := by
    intro b hb
    by_cases hc : Complete b
    · exact .inl ⟨b, hb, hc, rfl⟩
    · cases (hb.to_rest hrest hstop).eq_of_not_complete hc
      exact .inr .front
  induction h with
  | front => exact hown data .front
  | next _ hsize hle ih =>
    cases ih with
    | inl hpassed =>
      obtain ⟨b, hb, ⟨size, hsize', hle'⟩, rfl⟩ := hpassed
      cases (fullMessageSize_append hsize' more).symm.trans hsize
      rw [List.drop_append_of_le_length hle']
      exact hown _ (hb.next hsize' hle')
    | inr hlater => exact .inr (hlater.next hsize hle)

theorem Alive.of_append (h : Alive (data ++ more)) : Alive data := by
  intro b hd hb hc hread
  exact h (b ++ more) hd (hb.append more) (hc.append more) (readHeader_append hread more)

/-! ## The inner loop -/

/-- A message of no size is taken again and again. -/
theorem drain_repeat {m : Taken} (htake : takeMessage data = .ok m) (hsame : m.fragmentData = data)
    (passes : Nat) (hl : l.fragmentData = data) : drain passes l = .hangs := by
  induction passes generalizing l with
  | zero => rfl
  | succ passes ih =>
    simp only [drain, hl, htake]
    exact ih hsame

/-- The messages of `data` are the first one, and those behind it. -/
theorem alive_iff (hread : readHeader data = some h) (hsize : WebSocketFullMessageSize data = some size)
    (hle : size ≤ data.length) : Alive data ↔ h.opcode = 0x02 ∧ Alive (data.drop size) := by
  constructor
  · intro halive
    refine ⟨halive data h .front ⟨size, hsize, hle⟩ hread, fun b h' hd hc hread' => ?_⟩
    exact halive b h' ((Head.front.next hsize hle).trans hd) hc hread'
  · intro ⟨hop, hrest⟩ b h' hd hc hread'
    cases hd.cases_front with
    | inl heq =>
      subst heq
      cases hread.symm.trans hread'
      exact hop
    | inr hlater =>
      obtain ⟨size', hsize', -, hafter⟩ := hlater
      cases hsize.symm.trans hsize'
      exact hrest b h' hafter hc hread'

/-- The inner loop stops at an access outside where some head is not legible, and otherwise comes to
rest behind the complete messages. It goes on forever only behind a message that is not binary. -/
theorem drain_cases {passes : Nat} (hfuel : l.fragmentData.length < passes)
    (hb : ∀ b, Head l.fragmentData b → Bounded b) :
    (drain passes l = .outside ∧ ∃ b, Head l.fragmentData b ∧ ¬ Legible b) ∨
    ((∀ b, Head l.fragmentData b → Legible b) ∧
      ((drain passes l = .hangs ∧ ¬ Alive l.fragmentData) ∨
      ∃ l', drain passes l = .rests l' ∧ Head l.fragmentData l'.fragmentData ∧
        ¬ Complete l'.fragmentData ∧
        (l'.connectionAlive = true ↔ l.connectionAlive = true ∧ Alive l.fragmentData))) := by
  induction passes generalizing l with
  | zero => omega
  | succ passes ih =>
    rcases pass_cases (hb _ .front) with ⟨hleg, htake⟩ | ⟨hleg, hc, htake⟩ |
      ⟨hleg, h, size, payload, hread, hsize, hle, hzero, htake⟩
    · exact .inl ⟨by simp [drain, htake], _, .front, hleg⟩
    · have honly : ∀ b, Head l.fragmentData b → b = l.fragmentData := fun b hd =>
        hd.eq_of_not_complete hc
      have halive : Alive l.fragmentData := fun b h hd hcb _ => absurd (honly b hd ▸ hcb) hc
      refine .inr ⟨fun b hd => (honly b hd).symm ▸ hleg, .inr ⟨l, by simp [drain, htake], .front, hc, ?_⟩⟩
      simp [halive]
    · have hcomplete : Complete l.fragmentData := ⟨size, hsize, hle⟩
      have hpass : drain (passes + 1) l =
          drain passes (l.after ⟨h.opcode, payload, l.fragmentData.drop size⟩) := by
        simp [drain, htake]
      have hheads : ∀ b, Head l.fragmentData b →
          b = l.fragmentData ∨ Head (l.fragmentData.drop size) b := by
        intro b hd
        refine hd.cases_front.imp id fun ⟨size', hsize', _, hrest⟩ => ?_
        cases hsize.symm.trans hsize'
        exact hrest
      have hfirst : ∀ b, Head (l.fragmentData.drop size) b → Head l.fragmentData b := fun b hd =>
        (Head.front.next hsize hle).trans hd
      have hlegible : (∀ b, Head (l.fragmentData.drop size) b → Legible b) →
          ∀ b, Head l.fragmentData b → Legible b := by
        intro hrest b hd
        cases hheads b hd with
        | inl heq => exact heq.symm ▸ hleg
        | inr hlater => exact hrest b hlater
      have halive := alive_iff hread hsize hle
      by_cases hrepeat : size = 0
      · -- nothing is taken off, and the message is the only one
        have hsame : l.fragmentData.drop size = l.fragmentData := by simp [hrepeat]
        have honly : ∀ b, Head l.fragmentData b → b = l.fragmentData := by
          intro b hd
          induction hd with
          | front => rfl
          | next _ hsize' _ heq =>
            subst heq
            cases hsize.symm.trans hsize'
            exact hsame
        refine .inr ⟨fun b hd => (honly b hd).symm ▸ hleg, .inl ⟨?_, fun h => ?_⟩⟩
        · exact drain_repeat htake hsame (passes + 1) rfl
        · exact hzero hrepeat (halive.mp h).1
      · have hshorter : (l.fragmentData.drop size).length < passes := by simp; omega
        have hnext := ih (l := l.after ⟨h.opcode, payload, l.fragmentData.drop size⟩) hshorter
          (fun b hd => hb b (hfirst b hd))
        rw [← hpass] at hnext
        cases hnext with
        | inl hout =>
          obtain ⟨hout, b, hd, hbad⟩ := hout
          exact .inl ⟨hout, b, hfirst b hd, hbad⟩
        | inr hin =>
          refine .inr ⟨hlegible hin.1, hin.2.imp (fun hhang => ?_) fun hrests => ?_⟩
          · exact ⟨hhang.1, fun hall => hhang.2 (halive.mp hall).2⟩
          · obtain ⟨l', hrun, hd, hstop, hconn⟩ := hrests
            refine ⟨l', hrun, hfirst _ hd, hstop, hconn.trans ?_⟩
            simp only [Loop.after, Bool.and_eq_true, beq_iff_eq, halive, and_assoc]

/-! ## Chunk by chunk -/

/-- Where no size can be computed yet, there are a few bytes only. -/
theorem length_lt_of_fullMessageSize (hnone : WebSocketFullMessageSize data = none) :
    data.length < 10 := by
  cases hread : readHeader data with
  | none =>
    have hshort := readHeader_eq_none.mp hread
    omega
  | some h =>
    rw [fullMessageSize_eq hread] at hnone
    have hext := (payloadLength_eq_none hread).mp (Option.map_eq_none_iff.mp hnone)
    have hle : h.extBytes ≤ 8 := by
      unfold WebSocketMessageHeader.extBytes
      split <;> simp
    omega

theorem bounded_of_length (hlen : data.length ≤ 2 * BUFFER_SIZE) : Bounded data := by
  intro h len _ _
  simp only [BUFFER_SIZE] at hlen
  omega

/-- Behind bytes that wait for more, one chunk does not bring as many bytes as a size that wraps. -/
theorem bounded_of_chunk {pending b : List UInt8} (hstop : ¬ Complete pending) (c : Chunk)
    (hd : Head (pending ++ c.bytes) b) : Bounded b := by
  have hsmall := c.small
  have hafter : ∀ size, WebSocketFullMessageSize (pending ++ c.bytes) = some size →
      (pending ++ c.bytes).length ≤ size + 2 * BUFFER_SIZE := by
    intro size hsize
    cases hfull : WebSocketFullMessageSize pending with
    | none =>
      have hshort := length_lt_of_fullMessageSize hfull
      simp [BUFFER_SIZE] at hsmall ⊢
      omega
    | some s =>
      have hlt : pending.length < s := Nat.lt_of_not_le fun hle => hstop ⟨s, hfull, hle⟩
      cases (fullMessageSize_append hfull c.bytes).symm.trans hsize
      simp
      omega
  have hcases : b = pending ++ c.bytes ∨ b.length ≤ 2 * BUFFER_SIZE := by
    induction hd with
    | front => exact .inl rfl
    | next _ hsize hle ih =>
      refine .inr ?_
      cases ih with
      | inl heq =>
        subst heq
        have hbound := hafter _ hsize
        rw [List.length_drop]
        omega
      | inr hshort =>
        rw [List.length_drop]
        omega
  cases hcases with
  | inr hshort => exact bounded_of_length hshort
  | inl heq =>
    subst heq
    intro h len hread hlen
    have hbound := hafter ((h.headerBytes + len) % 2 ^ 64) (by simp [fullMessageSize_eq hread, hlen])
    have hhead := headerBytes_le h
    have hlt := payloadLength_lt hlen
    simp only [BUFFER_SIZE] at hbound
    omega

/-- Each `recv` that the connection is alive for leaves every message that starts in the bytes received
so far legible: their end is not within an extended length, and no size that wraps is relied on. -/
def LegibleFrom (pending : List UInt8) (cs : List Chunk) : Prop :=
  ∀ before c after, cs = before ++ c :: after → Alive (pending ++ stream before) →
    ∀ b, Head (pending ++ stream (before ++ [c])) b → Legible b

def LegibleCuts (cs : List Chunk) : Prop := LegibleFrom [] cs

theorem stream_cons (c : Chunk) (cs : List Chunk) : stream (c :: cs) = c.bytes ++ stream cs := by
  simp [stream]

theorem alive_of_not_complete (hstop : ¬ Complete data) : Alive data := by
  intro b h hd hc _
  exact absurd (hd.eq_of_not_complete hstop ▸ hc) hstop

theorem LegibleFrom.head {pending : List UInt8} (hl : LegibleFrom pending (c :: cs))
    (hstop : ¬ Complete pending) : ∀ b, Head (pending ++ c.bytes) b → Legible b := by
  have hfirst := hl [] c cs rfl (by simpa [stream] using alive_of_not_complete hstop)
  simpa [stream] using hfirst

/-- After a chunk whose messages end the connection, nothing more is received. -/
theorem legibleFrom_of_dead {pending : List UInt8} (hleg : ∀ b, Head (pending ++ c.bytes) b → Legible b)
    (hdead : ¬ Alive (pending ++ c.bytes)) : LegibleFrom pending (c :: cs) := by
  intro before d after heq halive
  cases before with
  | nil =>
    simp only [List.nil_append, List.cons.injEq] at heq
    simpa [stream, ← heq.1] using hleg
  | cons e before =>
    simp only [List.cons_append, List.cons.injEq] at heq
    rw [stream_cons, ← heq.1, ← List.append_assoc] at halive
    exact absurd halive.of_append hdead

/-- After a chunk that is legible it is as if the connection started with what is left. -/
theorem legibleFrom_cons {pending : List UInt8} (hleg : ∀ b, Head (pending ++ c.bytes) b → Legible b)
    (halive : Alive (pending ++ c.bytes)) (hrest : Head (pending ++ c.bytes) rest) (hstop : ¬ Complete rest) :
    LegibleFrom pending (c :: cs) ↔ LegibleFrom rest cs := by
  have hmore : ∀ more, (∀ b, Head (pending ++ c.bytes ++ more) b → Legible b) ↔
      ∀ b, Head (rest ++ more) b → Legible b := by
    intro more
    constructor
    · intro h b hd
      exact h b ((hrest.append more).trans hd)
    · intro h b hd
      cases hd.of_append hrest hstop with
      | inl hpassed =>
        obtain ⟨front, hfront, hc, rfl⟩ := hpassed
        exact (hleg front hfront).append hc more
      | inr hlater => exact h b hlater
  have hlive : ∀ more, Alive (pending ++ c.bytes ++ more) ↔ Alive (rest ++ more) := by
    intro more
    constructor
    · intro h b hh hd hc hread
      exact h b hh ((hrest.append more).trans hd) hc hread
    · intro h b hh hd hc hread
      cases hd.of_append hrest hstop with
      | inl hpassed =>
        obtain ⟨front, hfront, hc', rfl⟩ := hpassed
        cases hread' : readHeader front with
        | none =>
          obtain ⟨size, hsize, -⟩ := hc'
          simp [WebSocketFullMessageSize, hread'] at hsize
        | some h' =>
          have heq := Option.some.inj ((readHeader_append hread' more).symm.trans hread)
          rw [← heq]
          exact halive front h' hfront hc' hread'
      | inr hlater => exact h b hh hlater hc hread
  constructor
  · intro h before d after heq hal
    have hat := h (c :: before) d after (by simp [heq])
    simp only [List.cons_append, stream_cons, ← List.append_assoc] at hat
    exact (hmore _).mp (hat ((hlive _).mpr hal))
  · intro h before d after heq hal
    cases before with
    | nil =>
      simp only [List.nil_append, List.cons.injEq] at heq
      simpa [stream, ← heq.1] using hleg
    | cons e before =>
      simp only [List.cons_append, List.cons.injEq] at heq
      obtain ⟨rfl, heq⟩ := heq
      rw [stream_cons, ← List.append_assoc] at hal
      simp only [List.cons_append, stream_cons, ← List.append_assoc]
      exact (hmore _).mpr (h before d after heq ((hlive _).mp hal))

/-- The loop stays inside the bytes received exactly where every cut leaves the messages legible. -/
theorem connection_thread_outside (cs : List Chunk) (hstop : ¬ Complete l.fragmentData)
    (hconn : l.connectionAlive = true) : connection_thread cs l ≠ .outside ↔ LegibleFrom l.fragmentData cs := by
  induction cs generalizing l with
  | nil =>
    simp [connection_thread, LegibleFrom]
  | cons c cs ih =>
    have hb : ∀ b, Head (l.fragmentData ++ c.bytes) b → Bounded b := fun b hd =>
      bounded_of_chunk hstop c hd
    have hcases := drain_cases (l := { l with fragmentData := l.fragmentData ++ c.bytes })
      (Nat.lt_succ_self _) hb
    simp only [connection_thread]
    cases hcases with
    | inl hout =>
      obtain ⟨hout, b, hd, hbad⟩ := hout
      simp only [hout, ne_eq, not_true_eq_false, false_iff]
      intro hl
      exact hbad (hl.head hstop b hd)
    | inr hin =>
      obtain ⟨hleg, hhang | ⟨l', hrun, hd, hstop', hconn'⟩⟩ := hin
      · have hdead : LegibleFrom l.fragmentData (c :: cs) := legibleFrom_of_dead hleg hhang.2
        simp only [hhang.1]
        simp [hdead]
      · simp only [hrun]
        simp only [hconn, true_and] at hconn'
        split
        · next hgo =>
            rw [ih hstop' hgo]
            exact (legibleFrom_cons hleg (hconn'.mp hgo) hd hstop').symm
        · next hend =>
            have hdead : LegibleFrom l.fragmentData (c :: cs) :=
              legibleFrom_of_dead hleg fun halive => hend (hconn'.mpr halive)
            simp [hdead]

/-! ## Frames -/

/-- A part of a frame is not taken for the whole. -/
theorem not_complete_of_frame {f : Frame} {part : List UInt8} (heq : part ++ rest = f.bytes ++ more)
    (hshort : part.length < f.bytes.length) : ¬ Complete part := by
  intro ⟨size, hsize, hle⟩
  have hfull := fullMessageSize_append hsize rest
  rw [heq, f.fullMessageSize_bytes more] at hfull
  cases hfull
  omega

/-- The frames that are all there are handed on, and the rest of the next one is waited for. -/
theorem drain_frames {passes : Nat} (hfuel : l.fragmentData.length < passes) {frames : List Frame}
    (hl : l.fragmentData ++ rest = frames.flatMap Frame.bytes) (hconn : l.connectionAlive = true)
    (hleg : ∀ b, Head l.fragmentData b → Legible b) :
    ∃ done todo l', frames = done ++ todo ∧ drain passes l = .rests l' ∧
      l'.fragmentData ++ rest = todo.flatMap Frame.bytes ∧ l'.connectionAlive = true ∧
      l'.handed = l.handed ++ done.map Frame.payload := by
  induction passes generalizing l frames with
  | zero => omega
  | succ passes ih =>
    cases frames with
    | nil =>
      have hnil : l.fragmentData = [] := (List.append_eq_nil_iff.mp hl).1
      have hwait : takeMessage l.fragmentData = .error .wait :=
        takeMessage_short (readHeader_eq_none.mpr (by simp [hnil]))
      exact ⟨[], [], l, rfl, by simp [drain, hwait], hl, hconn, by simp⟩
    | cons f frames =>
      rw [List.flatMap_cons] at hl
      by_cases hshort : l.fragmentData.length < f.bytes.length
      · have hwait := takeMessage_wait (hleg _ .front) (not_complete_of_frame hl hshort)
        exact ⟨[], f :: frames, l, rfl, by simp [drain, hwait], by simpa using hl, hconn, by simp⟩
      · -- the first frame is there, with the start of what follows
        have hfront : f.bytes <+: l.fragmentData := by
          have hof : f.bytes <+: l.fragmentData ++ rest := hl.symm ▸ List.prefix_append _ _
          exact List.prefix_of_prefix_length_le hof (List.prefix_append _ _) (Nat.le_of_not_lt hshort)
        obtain ⟨more, hmore⟩ := hfront
        have hrest : more ++ rest = frames.flatMap Frame.bytes := by
          rw [← hmore, List.append_assoc] at hl
          exact List.append_cancel_left hl
        have htake : takeMessage l.fragmentData = .ok ⟨0x02, f.payload, more⟩ := by
          rw [← hmore]
          exact takeMessage_frame f more
        have hhead : Head l.fragmentData more := by
          have hnext := Head.front.next (f.fullMessageSize_bytes more) (by simp)
          rwa [List.drop_left, hmore] at hnext
        have hpos : 2 ≤ f.bytes.length := by
          rw [f.length_bytes, WebSocketMessageHeader.headerBytes]
          omega
        have hfuel' : more.length < passes := by
          rw [← hmore, List.length_append] at hfuel
          omega
        obtain ⟨done, todo, l', rfl, hrun, hleft, hconn', hhanded⟩ :=
          ih (l := l.after ⟨0x02, f.payload, more⟩) hfuel' hrest (by simp [Loop.after, hconn])
            fun b hd => hleg b (hhead.trans hd)
        refine ⟨f :: done, todo, l', rfl, ?_, hleft, hconn', ?_⟩
        · simpa [drain, htake] using hrun
        · simpa [Loop.after] using hhanded

/-- Whatever the cuts, as long as they leave the messages legible, the payloads are handed on. -/
theorem connection_thread_frames (cs : List Chunk) {frames : List Frame}
    (hl : l.fragmentData ++ stream cs = frames.flatMap Frame.bytes) (hconn : l.connectionAlive = true)
    (hstop : ¬ Complete l.fragmentData) (hleg : LegibleFrom l.fragmentData cs) :
    ∃ l', connection_thread cs l = .rests l' ∧ l'.handed = l.handed ++ frames.map Frame.payload := by
  induction cs generalizing l frames with
  | nil =>
    cases frames with
    | nil => exact ⟨l, rfl, by simp⟩
    | cons f frames =>
      refine absurd ⟨f.bytes.length, ?_⟩ hstop
      have hall : l.fragmentData = f.bytes ++ frames.flatMap Frame.bytes := by
        simpa [stream] using hl
      rw [hall]
      exact ⟨f.fullMessageSize_bytes _, by simp⟩
  | cons c cs ih =>
    have hheads := hleg.head hstop
    rw [stream_cons, ← List.append_assoc] at hl
    obtain ⟨done, todo, l₁, rfl, hrun, hleft, hconn₁, hhanded⟩ :=
      drain_frames (l := { l with fragmentData := l.fragmentData ++ c.bytes }) (Nat.lt_succ_self _) hl
        hconn hheads
    have hcases := drain_cases (l := { l with fragmentData := l.fragmentData ++ c.bytes })
      (Nat.lt_succ_self _) fun b hd => bounded_of_chunk hstop c hd
    simp only [hrun, Outcome.rests.injEq, reduceCtorEq, false_and, false_or] at hcases
    obtain ⟨-, l₂, rfl, hd, hstop₁, halive⟩ := hcases
    have hlive := (halive.mp hconn₁).2
    have hleg₁ := (legibleFrom_cons hheads hlive hd hstop₁).mp hleg
    obtain ⟨l', hrun', hhanded'⟩ := ih hleft hconn₁ hstop₁ hleg₁
    refine ⟨l', ?_, ?_⟩
    · simp only [connection_thread]
      simp only [hrun, hconn₁, if_true]
      exact hrun'
    · simp [hhanded', hhanded]

/-- The loop reads only what was received, and hands on what was sent, exactly where the cuts leave the
messages legible; and a message comes back from its frame exactly below 2^31 bytes. -/
theorem connection_loop_correct (cs : List Chunk) (m : Message) :
    ((Safe cs ∧ Delivers cs) ↔ LegibleCuts cs) ∧ (RoundTrips m ↔ m.bytes.length < 2 ^ 31) := by
  have hstop : ¬ Complete Loop.start.fragmentData := by
    intro ⟨size, hsize, _⟩
    simp [Loop.start, WebSocketFullMessageSize, readHeader] at hsize
  refine ⟨⟨fun h => ?_, fun h => ⟨?_, ?_⟩⟩, roundTrips_iff m⟩
  · exact (connection_thread_outside cs hstop rfl).mp h.1
  · exact (connection_thread_outside cs hstop rfl).mpr h
  · intro frames hframes
    obtain ⟨l, hrun, hhanded⟩ := connection_thread_frames cs (l := .start) hframes rfl hstop h
    exact ⟨l, hrun, by simpa [Loop.start] using hhanded⟩

/-- The client's frame of 126 bytes arrives with its first two bytes alone. -/
theorem extended_length_cut : ¬ ∀ cs : List Chunk, Safe cs ∧ Delivers cs := by
  intro h
  have hsafe := (h [⟨[0x82, 0xFE], by simp, by simp [BUFFER_SIZE]⟩]).1
  exact hsafe rfl

end Proxy
