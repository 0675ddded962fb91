-- SUMMARY: For which payloads the handlers of the proxy stay within the payload and their own buffers.
import Emscripten.Proxy.Handlers

/-!
# Bounds of the handlers

`Fits` says for each function which payloads its handler can take, whatever the system call
returns. Most handlers only need their structure to be there; those that ask for an address or
an option write to a buffer of fixed size by a length out of the message.
-/

namespace Proxy

open Words

/-! ## One step of a run -/

/-- The word at an offset, where it is there. -/
def word (off : Nat) (data : List UInt8) : Nat := (load 4 off data).getD 0

variable {α : Type} {data : List UInt8}

theorem uint32_bind (off : Nat) (f : Nat → Except Stop α) : (uint32 off data >>= f) =
    if off + 4 ≤ data.length then f (word off data) else .error .outside := by
  unfold uint32 word
  by_cases hin : off + 4 ≤ data.length
  · simp [load, hin, bind, Except.bind]
  · simp [load, hin, bind, Except.bind]

theorem access_bind (off len size : Nat) (f : Unit → Except Stop α) : (access off len size >>= f) =
    if len = 0 ∨ off + len ≤ size then f () else .error .outside := by
  unfold access
  split <;> rfl

theorem malloc_bind (size : Nat) (f : Nat → Except Stop α) : (malloc size >>= f) =
    if size < 2 ^ 63 then f size else .error .noMemory := by
  unfold malloc
  split <;> rfl

theorem word_lt (data : List UInt8) (off : Nat) : word off data < 2 ^ 32 := by
  unfold word
  cases hload : load 4 off data with
  | none => simp
  | some n =>
    obtain ⟨hin, rfl⟩ := load_eq_some.mp hload
    have hlen : ((data.drop off).take 4).length = 4 := by simp; omega
    simpa [hlen] using ofLE_lt ((data.drop off).take 4)

theorem isOwned_bind (tracked : Int → Bool) (f : Bool → Except Stop α) :
    (isOwned tracked data >>= f) = if 12 ≤ data.length then
      f (IsSocketPartOfConnection tracked (toInt (word 8 data))) else .error .outside := by
  have hassoc : (isOwned tracked data >>= f) =
      uint32 8 data >>= fun s => f (IsSocketPartOfConnection tracked (toInt s)) := by
    unfold isOwned
    cases uint32 8 data <;> rfl
  rw [hassoc, uint32_bind]

theorem callId_bind (h : 8 ≤ data.length) (f : Int → Except Stop α) :
    (callId data >>= f) = f (toInt (word 0 data)) := by
  have hassoc : (callId data >>= f) = uint32 0 data >>= fun w => f (toInt w) := by
    unfold callId
    cases uint32 0 data <;> rfl
  rw [hassoc, uint32_bind, if_pos (by omega)]

/-! ## Answers -/

@[simp] theorem length_intBytes (i : Int) : (intBytes i).length = 4 := by simp [intBytes]

theorem length_fields (fields : List Int) : (fields.flatMap intBytes).length = 4 * fields.length := by
  induction fields with
  | nil => rfl
  | cons i fields ih => simp [ih]; omega

def partBytes (parts : List Part) : Nat := (parts.map fun p => toSize p.len).sum

theorem copyParts_ok {total off : Nat} {parts : List Part}
    (hfit : ∀ p ∈ parts, toSize p.len ≤ p.size) (htotal : off + partBytes parts ≤ total) :
    copyParts total off parts = .ok (parts.flatMap fun p => p.bytes.take (toSize p.len)) := by
  induction parts generalizing off with
  | nil => rfl
  | cons p ps ih =>
    simp only [partBytes, List.map_cons, List.sum_cons] at htotal
    have hp := hfit p (List.mem_cons_self ..)
    have hrest := @ih (off + toSize p.len) (fun q hq => hfit q (List.mem_cons_of_mem _ hq))
      (by unfold partBytes; omega)
    simp only [copyParts, access_bind]
    rw [if_pos (by omega), if_pos (by omega), hrest]
    rfl

variable {fields : List Int}

/-- An answer whose size is an `int` is sent. -/
theorem answer_ok {parts : List Part} (hfit : ∀ p ∈ parts, toSize p.len ≤ p.size)
    (hsize : 4 * fields.length + partBytes parts < 2 ^ 31) :
    answer fields parts = .ok [fields.flatMap intBytes ++
      parts.flatMap fun p => p.bytes.take (toSize p.len)] := by
  have hcast : castInt ((fields.flatMap intBytes).length + partBytes parts : Nat) =
      (4 * fields.length + partBytes parts : Nat) := by
    rw [length_fields]
    unfold castInt toInt
    split <;> omega
  have hsz : toSize ((4 * fields.length + partBytes parts : Nat) : Int) =
      4 * fields.length + partBytes parts := by
    unfold toSize
    omega
  unfold answer
  simp only [malloc_bind, access_bind]
  rw [show (parts.map fun p => toSize p.len).sum = partBytes parts from rfl, hcast, hsz,
    if_pos (by omega), if_pos (by rw [length_fields]; omega),
    copyParts_ok hfit (Nat.le_of_eq (by rw [length_fields]))]
  rfl

/-- An answer whose size comes out negative is not allocated. -/
theorem answer_noMemory {parts : List Part} (hsize : 2 ^ 31 ≤ (4 * fields.length + partBytes parts) % 2 ^ 32) :
    answer fields parts = .error .noMemory := by
  have hcast : ¬ toSize (castInt ((fields.flatMap intBytes).length + partBytes parts : Nat)) < 2 ^ 63 := by
    rw [length_fields]
    unfold castInt toInt toSize
    split <;> omega
  unfold answer
  simp only [malloc_bind]
  rw [show (parts.map fun p => toSize p.len).sum = partBytes parts from rfl, if_neg hcast]

/-- An answer whose size comes out smaller than its fields is written behind its end. -/
theorem answer_outside {parts : List Part}
    (hsize : (4 * fields.length + partBytes parts) % 2 ^ 32 < 4 * fields.length) (hfields : fields.length ≤ 5) :
    answer fields parts = .error .outside := by
  have hcast : toSize (castInt ((fields.flatMap intBytes).length + partBytes parts : Nat)) =
      (4 * fields.length + partBytes parts) % 2 ^ 32 := by
    rw [length_fields]
    unfold castInt toInt toSize
    split <;> omega
  unfold answer
  simp only [malloc_bind, access_bind]
  rw [show (parts.map fun p => toSize p.len).sum = partBytes parts from rfl, hcast, if_pos (by omega),
    if_neg (by rw [length_fields]; omega)]

theorem answer_inside {parts : List Part} (hfit : ∀ p ∈ parts, toSize p.len ≤ p.size)
    (hsize : 4 * fields.length + partBytes parts < 2 ^ 32) : answer fields parts ≠ .error .outside := by
  by_cases hlow : 4 * fields.length + partBytes parts < 2 ^ 31
  · simp [answer_ok hfit hlow]
  · have hbig : 2 ^ 31 ≤ (4 * fields.length + partBytes parts) % 2 ^ 32 := by omega
    simp [answer_noMemory hbig]

/-! ## Casts -/

theorem toUInt_castInt (n : Nat) : toUInt (castInt n) = n % 2 ^ 32 := by
  unfold toUInt castInt toInt
  split <;> omega

theorem toSize_castInt (n : Nat) : toSize (castInt n) =
    if n % 2 ^ 32 < 2 ^ 31 then n % 2 ^ 32 else 2 ^ 64 - 2 ^ 32 + n % 2 ^ 32 := by
  unfold toSize castInt toInt
  split <;> split <;> omega

/-- Below 16 bytes the subtraction wraps, and the address counts as there. -/
theorem toUInt_connectLength {address_len : Nat} (h : address_len < 2 ^ 32) (numBytes : Nat) :
    toUInt (connectLength address_len numBytes) =
      if 16 ≤ numBytes % 2 ^ 32 then min address_len (numBytes % 2 ^ 32 - 16) else address_len := by
  rw [connectLength, toUInt_castInt]
  unfold toSize
  split <;> omega

/-! ## Payloads that fit -/

/-- A message that reaches a handler has the header of a call. -/
structure Payload where
  bytes : List UInt8
  header : 8 ≤ bytes.length
  small : bytes.length < 2 ^ 63

def Owned (tracked : Int → Bool) (data : List UInt8) : Prop :=
  IsSocketPartOfConnection tracked (toInt (word 8 data)) = true

/-- What the handler of a message needs of it. -/
def Fits (tracked : Int → Bool) (data : List UInt8) : Prop :=
  match word 4 data with
  | 1 => 20 ≤ data.length
  | 2 => 20 ≤ data.length
  | 3 => 16 ≤ data.length
  | 4 => 12 ≤ data.length ∧
      (Owned tracked data → 16 ≤ data.length ∧ 16 + word 12 data ≤ data.length)
  | 5 => 16 ≤ data.length ∧
      (Owned tracked data → 16 ≤ data.length % 2 ^ 32 ∨ 16 + word 12 data ≤ data.length)
  | 6 => 12 ≤ data.length ∧ (Owned tracked data → 16 ≤ data.length)
  | 7 => 16 ≤ data.length
  | 8 => 16 ≤ data.length ∧ (Owned tracked data → word 12 data ≤ MAX_SOCKADDR_SIZE)
  | 9 => 16 ≤ data.length ∧ (Owned tracked data → word 12 data ≤ MAX_SOCKADDR_SIZE)
  | 10 => 16 ≤ data.length ∧ (Owned tracked data → 20 ≤ data.length ∧
      (20 ≤ data.length % 2 ^ 32 ∧ data.length % 2 ^ 32 < 2 ^ 31 ∨
        word 12 data < 2 ^ 31 ∧ 20 + word 12 data ≤ data.length))
  | 11 => 16 ≤ data.length ∧
      (Owned tracked data → 20 ≤ data.length ∧ word 12 data < 2 ^ 32 - 12)
  | 12 => 12 ≤ data.length ∧ (Owned tracked data → 24 ≤ data.length ∧
      (word 12 data = 0 ∨ 280 + word 12 data ≤ data.length) ∧
      (word 20 data = 0 ∨ 24 + word 20 data ≤ data.length))
  | 13 => 24 ≤ data.length ∧ (Owned tracked data → word 20 data ≤ MAX_SOCKADDR_SIZE)
  | 16 => 24 ≤ data.length ∧ (Owned tracked data → word 20 data ≤ MAX_OPTIONVALUE_SIZE)
  | 17 => 24 ≤ data.length ∧
      (Owned tracked data → word 20 data < 2 ^ 31 ∨ 24 + 2 ^ 31 ≤ data.length)
  | 18 => 2204 ≤ data.length ∧ 0 ∈ data.drop (8 + MAX_NODE_LEN)
  | _ => True

theorem RecvResult.ret_bounds {length : Nat} (r : RecvResult length) :
    -1 ≤ r.ret ∧ r.ret ≤ length := by
  have hfits := r.fits
  unfold RecvResult.ret
  split
  · next bs hdata =>
      have hbs := hfits bs hdata
      omega
  · omega

theorem length_canonnameBytes (name : Option (List UInt8)) :
    (canonnameBytes name).length = MAX_NODE_LEN := by
  unfold canonnameBytes MAX_NODE_LEN
  simp only [List.length_append, List.length_take, List.length_replicate]
  omega

theorem length_addrinfos (addrs : List Addrinfo) :
    (addrs.flatMap Addrinfo.bytes).length ≤ 148 * addrs.length := by
  induction addrs with
  | nil => simp
  | cons ai addrs ih =>
    have hstorage := ai.storage
    have hfields : ai.bytes.length = 20 + ai.addr.length := by
      unfold Addrinfo.bytes
      rw [List.length_append, length_fields]
      rfl
    simp only [SOCKADDR_STORAGE_SIZE] at hstorage
    rw [List.flatMap_cons, List.length_append, hfields, List.length_cons]
    omega

/-- A buffer that a call has written the start of. -/
theorem length_written {bs buffer : List UInt8} (h : bs.length ≤ buffer.length) :
    (bs ++ buffer.drop bs.length).length = buffer.length := by
  simp
  omega

section

variable {k : Kernel} {tracked : Int → Bool} (h8 : 8 ≤ data.length)

include h8

/-- The calls on a socket differ in what they read, and only where the socket is the connection's. -/
theorem socketCall_inside {call : Except Stop (Int × Int)} :
    socketCall k tracked data call ≠ .error .outside ↔
      12 ≤ data.length ∧ (Owned tracked data → call ≠ .error .outside) := by
  have hanswer : ∀ fields : List Int, fields.length = 3 → answer fields [] ≠ .error .outside := by
    intro fields hlen
    exact answer_inside (by simp) (by simp [partBytes, hlen])
  unfold socketCall
  simp only [isOwned_bind, callId_bind h8]
  by_cases h12 : 12 ≤ data.length
  · rw [if_pos h12]
    by_cases hown : Owned tracked data
    · have hown' : IsSocketPartOfConnection tracked (toInt (word 8 data)) = true := hown
      simp only [hown', if_true, h12, hown, true_and, forall_const]
      cases call with
      | error e => simp [bind, Except.bind]
      | ok r => simpa [bind, Except.bind] using hanswer _ rfl
    · have hown' : ¬ IsSocketPartOfConnection tracked (toInt (word 8 data)) = true := hown
      simpa [hown', hown, h12, bind, Except.bind] using hanswer _ rfl
  · simp [h12]

/-- The calls that make sockets read three words, and always answer. -/
theorem wordsCall_inside (fields : Int → List Int) (hfields : ∀ id, (fields id).length ≤ 5) :
    (do
      let _ ← uint32 8 data
      let _ ← uint32 12 data
      let _ ← uint32 16 data
      answer (fields (← callId data)) []) ≠ .error .outside ↔ 20 ≤ data.length := by
  have hanswer : ∀ id, answer (fields id) [] ≠ .error .outside := by
    intro id
    have hlen := hfields id
    exact answer_inside (by simp) (by simp [partBytes]; omega)
  simp only [uint32_bind, callId_bind h8]
  by_cases h20 : 20 ≤ data.length
  · rw [if_pos (by omega), if_pos (by omega), if_pos (by omega)]
    simpa [h20] using hanswer _
  · rw [if_neg (c := 16 + 4 ≤ data.length) (by omega)]
    simp [h20]

theorem socket_inside : Socket k data ≠ .error .outside ↔ 20 ≤ data.length :=
  wordsCall_inside h8 (fun id => [id, k.call.ret, if k.call.ret < 0 then k.call.errno else 0]) fun _ => by simp

theorem socketpair_inside : Socketpair k data ≠ .error .outside ↔ 20 ≤ data.length :=
  wordsCall_inside h8 (fun id => [id, k.socketpair.ret, if k.socketpair.ret ≠ 0 then k.socketpair.errno else 0,
    k.socketpair.sv.1, k.socketpair.sv.2]) fun _ => by simp

theorem shutdown_inside : Shutdown k tracked data ≠ .error .outside ↔ 16 ≤ data.length := by
  unfold Shutdown
  simp only [uint32_bind]
  split
  · next h16 =>
      rw [socketCall_inside h8]
      simp
      omega
  · next h16 =>
      simp
      omega

theorem bind_inside : Bind k tracked data ≠ .error .outside ↔ 12 ≤ data.length ∧
    (Owned tracked data → 16 ≤ data.length ∧ 16 + word 12 data ≤ data.length) := by
  unfold Bind
  rw [socketCall_inside h8]
  simp only [uint32_bind, access_bind]
  refine and_congr_right fun _ => imp_congr_right fun _ => ?_
  split
  · split
    · simp
      omega
    · simp
      omega
  · simp
    omega

theorem listen_inside : Listen k tracked data ≠ .error .outside ↔
    12 ≤ data.length ∧ (Owned tracked data → 16 ≤ data.length) := by
  unfold Listen
  rw [socketCall_inside h8]
  simp only [uint32_bind]
  refine and_congr_right fun _ => imp_congr_right fun _ => ?_
  split
  · simp
    omega
  · simp
    omega

theorem connect_inside (hsmall : data.length < 2 ^ 63) :
    Connect k tracked data ≠ .error .outside ↔ 16 ≤ data.length ∧
      (Owned tracked data → 16 ≤ data.length % 2 ^ 32 ∨ 16 + word 12 data ≤ data.length) := by
  have hword := word_lt data 12
  unfold Connect
  simp only [uint32_bind]
  split
  · next h16 =>
      rw [socketCall_inside h8]
      simp only [access_bind]
      have hlen := toUInt_connectLength hword data.length
      refine and_congr (iff_of_true (by omega) h16) (imp_congr_right fun _ => ?_)
      by_cases hmod : 16 ≤ data.length % 2 ^ 32
      · rw [hlen, if_pos hmod, if_pos (by omega)]
        simp
        omega
      · rw [hlen, if_neg hmod]
        split
        · simp
          omega
        · simp
          omega
  · next h16 =>
      simp
      omega

theorem send_inside (hsmall : data.length < 2 ^ 63) :
    Send k tracked data ≠ .error .outside ↔ 16 ≤ data.length ∧
      (Owned tracked data → 20 ≤ data.length ∧
        (20 ≤ data.length % 2 ^ 32 ∧ data.length % 2 ^ 32 < 2 ^ 31 ∨
          word 12 data < 2 ^ 31 ∧ 20 + word 12 data ≤ data.length)) := by
  have hword := word_lt data 12
  unfold Send
  simp only [uint32_bind]
  split
  · next h16 =>
      rw [socketCall_inside h8]
      simp only [access_bind]
      refine and_congr (iff_of_true (by omega) h16) (imp_congr_right fun _ => ?_)
      by_cases h20 : 20 ≤ data.length
      · have hlen : (toSize (sendBytes (word 12 data) data.length) = 0 ∨
            20 + toSize (sendBytes (word 12 data) data.length) ≤ data.length) ↔
            20 ≤ data.length % 2 ^ 32 ∧ data.length % 2 ^ 32 < 2 ^ 31 ∨
              word 12 data < 2 ^ 31 ∧ 20 + word 12 data ≤ data.length := by
          unfold toSize sendBytes castInt toInt toSize
          split <;> split <;> omega
        rw [if_pos (by omega)]
        split
        · next h => simpa [h20] using hlen.mp h
        · next h => simpa [h20] using fun hw => h (hlen.mpr hw)
      · rw [if_neg (by omega)]
        simp [h20]
  · next h16 =>
      simp
      omega

theorem setsockopt_inside (hsmall : data.length < 2 ^ 63) :
    Setsockopt k tracked data ≠ .error .outside ↔ 24 ≤ data.length ∧
      (Owned tracked data → word 20 data < 2 ^ 31 ∨ 24 + 2 ^ 31 ≤ data.length) := by
  have hword := word_lt data 20
  unfold Setsockopt
  simp only [uint32_bind]
  by_cases h24 : 24 ≤ data.length
  · rw [if_pos (by omega), if_pos (by omega), if_pos (by omega), socketCall_inside h8]
    simp only [access_bind]
    refine and_congr (iff_of_true (by omega) h24) (imp_congr_right fun _ => ?_)
    have hlen : (toUInt (optionLength (toInt (word 20 data)) data.length) = 0 ∨
        24 + toUInt (optionLength (toInt (word 20 data)) data.length) ≤ data.length) ↔
        word 20 data < 2 ^ 31 ∨ 24 + 2 ^ 31 ≤ data.length := by
      unfold toUInt optionLength castInt toInt
      split <;> split <;> omega
    split
    · next h => simpa using hlen.mp h
    · next h => simpa using fun hw => h (hlen.mpr hw)
  · rw [if_neg (c := 20 + 4 ≤ data.length) (by omega)]
    simp
    omega

theorem sendto_inside (hsmall : data.length < 2 ^ 63) : Sendto k tracked data ≠ .error .outside ↔
    12 ≤ data.length ∧ (Owned tracked data → 24 ≤ data.length ∧
      (word 12 data = 0 ∨ 280 + word 12 data ≤ data.length) ∧
      (word 20 data = 0 ∨ 24 + word 20 data ≤ data.length)) := by
  unfold Sendto
  rw [socketCall_inside h8]
  simp only [uint32_bind, access_bind]
  refine and_congr_right fun _ => imp_congr_right fun _ => ?_
  by_cases h24 : 24 ≤ data.length
  · rw [if_pos (by omega), if_pos (by omega), if_pos (by omega)]
    split
    · next hmsg =>
        split
        · next hdest => simp [h24, hmsg, hdest]
        · next hdest => simp [hdest]
    · next hmsg => simp [hmsg]
  · rw [if_neg (c := 20 + 4 ≤ data.length) (by omega)]
    simp [h24]

theorem answerValue_inside {ret errorCode : Int} {outLen askedLen : Nat} {buffer : List UInt8}
    (hlen : min outLen askedLen ≤ buffer.length) (hbuffer : buffer.length ≤ 2 ^ 16) :
    answerValue data ret errorCode outLen askedLen buffer ≠ .error .outside := by
  have hcast : toSize (castInt (min outLen askedLen : Nat)) = min outLen askedLen := by
    rw [toSize_castInt]
    split <;> omega
  unfold answerValue
  simp only [callId_bind h8]
  apply answer_inside
  · simp only [List.mem_singleton, forall_eq, hcast]
    exact hlen
  · simp only [partBytes, List.length_cons, List.length_nil, List.map_cons, List.map_nil,
      List.sum_cons, List.sum_nil, hcast]
    omega

/-- A call has written the start of the buffer. -/
theorem answerValue_written {ret errorCode : Int} {outLen askedLen : Nat} {bs buffer : List UInt8}
    (h : bs.length ≤ buffer.length) (hlen : min outLen askedLen ≤ buffer.length) (hbuffer : buffer.length ≤ 2 ^ 16) :
    answerValue data ret errorCode outLen askedLen (bs ++ buffer.drop bs.length) ≠ .error .outside := by
  rw [← length_written h] at hlen hbuffer
  exact answerValue_inside h8 hlen hbuffer

omit h8 in
/-- The calls that fill a buffer of their handler do so by a length out of the message. -/
theorem ownedAccess_inside {asked size : Nat} {call other : Except Stop α}
    (hcall : asked ≤ size → call ≠ .error .outside) (hother : other ≠ .error .outside) :
    (do
      if ← isOwned tracked data then
        access 0 asked size
        call
      else other) ≠ .error .outside ↔ 12 ≤ data.length ∧ (Owned tracked data → asked ≤ size) := by
  unfold Owned
  simp only [isOwned_bind, access_bind]
  by_cases h12 : 12 ≤ data.length
  · rw [if_pos h12]
    by_cases hown : IsSocketPartOfConnection tracked (toInt (word 8 data)) = true
    · rw [if_pos hown]
      by_cases hlen : asked ≤ size
      · rw [if_pos (by omega)]
        exact iff_of_true (hcall hlen) ⟨h12, fun _ => hlen⟩
      · rw [if_neg (by omega)]
        simp [hown, hlen]
    · rw [if_neg hown]
      exact iff_of_true hother ⟨h12, fun h => absurd h hown⟩
  · simp [h12]

theorem accept_inside : Accept k tracked data ≠ .error .outside ↔ 16 ≤ data.length := by
  have hstorage := k.address.storage
  have hroom : SOCKADDR_STORAGE_SIZE ≤ MAX_SOCKADDR_SIZE := by
    simp [SOCKADDR_STORAGE_SIZE, MAX_SOCKADDR_SIZE]
  have hzeros : (List.replicate MAX_SOCKADDR_SIZE (0 : UInt8)).length = MAX_SOCKADDR_SIZE :=
    List.length_replicate
  have hmax : MAX_SOCKADDR_SIZE ≤ 2 ^ 16 := by simp [MAX_SOCKADDR_SIZE]
  unfold Accept
  simp only [uint32_bind]
  generalize List.replicate MAX_SOCKADDR_SIZE (0 : UInt8) = address at hzeros ⊢
  by_cases h16 : 16 ≤ data.length
  · rw [if_pos (by omega)]
    refine (ownedAccess_inside (fun hlen => ?_) ?_).trans (iff_of_true ⟨by omega, fun _ => by omega⟩ h16)
    · split
      · exact answerValue_inside h8 (by omega) (by omega)
      · have hwritten : (k.address.address.take (max 0 (min (word 12 data) MAX_SOCKADDR_SIZE))).length ≤
            address.length := by
          rw [List.length_take]
          omega
        exact answerValue_written h8 hwritten (by omega) (by omega)
    · exact answerValue_inside h8 (by omega) (by omega)
  · rw [if_neg (by omega)]
    simp [h16]

theorem addressCall_inside : addressCall k tracked data ≠ .error .outside ↔
    16 ≤ data.length ∧ (Owned tracked data → word 12 data ≤ MAX_SOCKADDR_SIZE) := by
  have hlocals : (k.locals MAX_SOCKADDR_SIZE).length = MAX_SOCKADDR_SIZE := by simp [Kernel.locals]
  have hmax : MAX_SOCKADDR_SIZE ≤ 2 ^ 16 := by simp [MAX_SOCKADDR_SIZE]
  unfold addressCall
  simp only [uint32_bind]
  by_cases h16 : 16 ≤ data.length
  · rw [if_pos (by omega)]
    refine (ownedAccess_inside (fun hlen => ?_) ?_).trans (and_congr_left fun _ => by omega)
    · split
      · exact answerValue_inside h8 (by omega) (by omega)
      · have hwritten : (k.address.address.take (word 12 data)).length ≤
            (k.locals MAX_SOCKADDR_SIZE).length := by
          rw [List.length_take]
          omega
        exact answerValue_written h8 hwritten (by omega) (by omega)
    · exact answerValue_inside h8 (by omega) (by omega)
  · rw [if_neg (by omega)]
    simp [h16]

theorem getsockopt_inside : Getsockopt k tracked data ≠ .error .outside ↔
    24 ≤ data.length ∧ (Owned tracked data → word 20 data ≤ MAX_OPTIONVALUE_SIZE) := by
  have hlocals : (k.locals MAX_OPTIONVALUE_SIZE).length = MAX_OPTIONVALUE_SIZE := by
    simp [Kernel.locals]
  have hmax : MAX_OPTIONVALUE_SIZE ≤ 2 ^ 16 := by simp [MAX_OPTIONVALUE_SIZE]
  have hfits := (k.getsockopt (word 20 data)).fits
  unfold Getsockopt
  simp only [uint32_bind]
  by_cases h24 : 24 ≤ data.length
  · rw [if_pos (by omega), if_pos (by omega), if_pos (by omega)]
    refine (ownedAccess_inside (fun hlen => ?_) ?_).trans (and_congr_left fun _ => by omega)
    · split
      · exact answerValue_inside h8 (by omega) (by omega)
      · exact answerValue_written h8 (by omega) (by omega) (by omega)
    · exact answerValue_inside h8 (by omega) (by omega)
  · rw [if_neg (c := 20 + 4 ≤ data.length) (by omega)]
    simp [h24]

theorem recvfrom_inside : Recvfrom k tracked data ≠ .error .outside ↔
    24 ≤ data.length ∧ (Owned tracked data → word 20 data ≤ MAX_SOCKADDR_SIZE) := by
  have hlength := word_lt data 12
  have hmax : MAX_SOCKADDR_SIZE ≤ 2 ^ 16 := by simp [MAX_SOCKADDR_SIZE]
  have hsend : ∀ (ret errorCode receivedBytes : Int) (bytes : List UInt8) (len : Nat)
      (address : List UInt8), 0 ≤ receivedBytes → receivedBytes < 2 ^ 31 →
      receivedBytes ≤ word 12 data → min len (word 20 data) ≤ MAX_SOCKADDR_SIZE →
      answer [toInt (word 0 data), ret, errorCode, receivedBytes, toInt (word 20 data)]
        [⟨receivedBytes, bytes, word 12 data⟩,
          ⟨castInt (min len (word 20 data) : Nat), address, MAX_SOCKADDR_SIZE⟩] ≠ .error .outside := by
    intro ret errorCode receivedBytes bytes len address hpos hlt hfit hlen
    have hbytes : toSize receivedBytes = receivedBytes.toNat := by
      unfold toSize
      omega
    have hcast : toSize (castInt (min len (word 20 data) : Nat)) = min len (word 20 data) := by
      rw [toSize_castInt]
      split <;> omega
    apply answer_inside
    · simp only [List.mem_cons, List.not_mem_nil, or_false, forall_eq_or_imp, forall_eq, hbytes, hcast]
      omega
    · simp only [partBytes, List.length_cons, List.length_nil, List.map_cons, List.map_nil,
        List.sum_cons, List.sum_nil, hbytes, hcast]
      omega
  have hstorage := (k.recvfrom (word 12 data)).storage
  have hret : max (castInt (k.recvfrom (word 12 data)).ret) 0 ≤ word 12 data ∧
      max (castInt (k.recvfrom (word 12 data)).ret) 0 < 2 ^ 31 := by
    have hbounds := (k.recvfrom (word 12 data)).ret_bounds
    unfold castInt toInt
    split <;> omega
  unfold Recvfrom
  simp only [uint32_bind, malloc_bind, callId_bind h8]
  by_cases h24 : 24 ≤ data.length
  · have h20 : 16 + 4 ≤ data.length := by omega
    rw [if_pos (by omega), if_pos (by omega), if_pos (by omega)]
    simp only [if_pos h20]
    refine (ownedAccess_inside (fun hlen => ?_) ?_).trans (and_congr_left fun _ => by omega)
    · split
      · apply hsend <;> omega
      · apply hsend <;> omega
    · apply hsend <;> simp
  · by_cases h16 : 12 + 4 ≤ data.length
    · rw [if_pos h16, if_neg (by omega)]
      simp [h24]
    · rw [if_neg h16]
      simp [h24]

end

/-- A kernel whose calls succeed and bring nothing. -/
def Kernel.quiet : Kernel where
  errno := 0
  errno_int := by simp [IsInt]
  call := ⟨0, 0, by simp [IsInt], by simp [IsInt]⟩
  socketpair := ⟨⟨0, 0, by simp [IsInt], by simp [IsInt]⟩, (0, 0), by simp [IsInt]⟩
  address := ⟨⟨0, 0, by simp [IsInt], by simp [IsInt]⟩, [], by simp⟩
  send _ := ⟨0, 0, by simp [IsInt], by simp⟩
  recv _ := ⟨some [], 0, by simp [IsInt], by simp⟩
  recvfrom _ := ⟨⟨some [], 0, by simp [IsInt], by simp⟩, none, by simp⟩
  getsockopt _ := ⟨⟨0, 0, by simp [IsInt], by simp [IsInt]⟩, [], by simp⟩
  getaddrinfo := ⟨⟨0, 0, by simp [IsInt], by simp [IsInt]⟩, none, by simp, [], by decide⟩
  stack _ := 0

/-- A kernel that has `n` bytes to receive. -/
def Kernel.receiving (n : Nat) : Kernel :=
  { Kernel.quiet with
    recv := fun length => ⟨some (List.replicate (min length n) 0), 0, by simp [IsInt],
      by simpa using Nat.min_le_left length n⟩ }

theorem Kernel.receiving_ret {n length : Nat} (h : n ≤ length) :
    ((Kernel.receiving n).recv length).ret = n := by
  simp [Kernel.receiving, RecvResult.ret, Nat.min_eq_right h]

section

variable {tracked : Int → Bool} (h8 : 8 ≤ data.length)

include h8

/-- A byte count from 2^32 - 12 on comes out negative, and the answer smaller than its fields. -/
theorem recv_inside : (∀ k : Kernel, Recv k tracked data ≠ .error .outside) ↔
    16 ≤ data.length ∧ (Owned tracked data → 20 ≤ data.length ∧ word 12 data < 2 ^ 32 - 12) := by
  have hlength := word_lt data 12
  have hpart : ∀ (receivedBytes : Int) (bytes : List UInt8) (size : Nat),
      partBytes [⟨receivedBytes, bytes, size⟩] = toSize receivedBytes := by
    intro receivedBytes bytes size
    simp [partBytes]
  unfold Recv
  simp only [uint32_bind, isOwned_bind, malloc_bind, callId_bind h8]
  by_cases h16 : 16 ≤ data.length
  · have hread : 12 + 4 ≤ data.length := by omega
    have hsocket : 12 ≤ data.length := by omega
    have hmalloc : word 12 data < 2 ^ 63 := by omega
    simp only [if_pos hread, if_pos hsocket, if_pos hmalloc]
    by_cases hown : Owned tracked data
    · have hown' : IsSocketPartOfConnection tracked (toInt (word 8 data)) = true := hown
      simp only [if_pos hown']
      by_cases h20 : 20 ≤ data.length
      · have hflags : 16 + 4 ≤ data.length := by omega
        simp only [if_pos hflags]
        constructor
        · intro h
          refine ⟨h16, fun _ => ⟨h20, Nat.lt_of_not_le fun hge => ?_⟩⟩
          -- as many bytes arrive as make the size of the answer wrap
          refine h (.receiving (2 ^ 32 - 12)) (answer_outside ?_ (by simp))
          have hsize : toSize (castInt (max ((2 ^ 32 - 12 : Nat) : Int) 0)) = 2 ^ 64 - 12 := by decide
          rw [hpart, Kernel.receiving_ret hge, hsize]
          simp
        · intro ⟨_, hcond⟩ k
          have hlt := (hcond hown).2
          have hret := (k.recv (word 12 data)).ret_bounds
          generalize (k.recv (word 12 data)).ret = ret at hret ⊢
          by_cases hsmall : ret < 2 ^ 31
          · have hsize : toSize (castInt (max ret 0)) = (max ret 0).toNat := by
              unfold toSize castInt toInt
              split <;> omega
            apply answer_inside
            · simp [hsize]
              omega
            · rw [hpart, hsize]
              simp
              omega
          · have hsize : toSize (castInt (max ret 0)) = 2 ^ 64 - 2 ^ 32 + ret.toNat := by
              unfold toSize castInt toInt
              split <;> omega
            rw [answer_noMemory]
            · simp
            · rw [hpart, hsize]
              simp
              omega
      · have hflags : ¬ 16 + 4 ≤ data.length := by omega
        simp only [if_neg hflags]
        simp [hown, h20]
        exact ⟨Kernel.quiet⟩
    · have hown' : ¬ IsSocketPartOfConnection tracked (toInt (word 8 data)) = true := hown
      refine iff_of_true (fun k => ?_) ⟨h16, fun h => absurd h hown⟩
      rw [if_neg hown']
      apply answer_inside
      · simp [toSize]
      · rw [hpart]
        simp [toSize]
  · have hread : ¬ 12 + 4 ≤ data.length := by omega
    simp only [if_neg hread]
    simp [h16]
    exact ⟨Kernel.quiet⟩

theorem getaddrinfo_inside {k : Kernel} : Getaddrinfo k data ≠ .error .outside ↔
    2204 ≤ data.length ∧ 0 ∈ data.drop (8 + MAX_NODE_LEN) := by
  have hstrings : ∀ (off : Nat) (f : Unit → Except Stop (List (List UInt8))),
      (cstring data off >>= f) = if 0 ∈ data.drop off then f () else .error .outside := by
    intro off f
    unfold cstring
    split <;> rfl
  have hnode : 0 ∈ data.drop (8 + MAX_NODE_LEN) → 0 ∈ data.drop 8 := by
    rw [← List.drop_drop]
    exact List.mem_of_mem_drop
  unfold Getaddrinfo
  simp only [uint32_bind, hstrings, callId_bind h8, MAX_NODE_LEN, MAX_SERVICE_LEN] at hnode ⊢
  by_cases hlen : 2204 ≤ data.length
  · rw [if_pos (by omega), if_pos (by omega), if_pos (by omega), if_pos (by omega), if_pos (by omega)]
    by_cases hservice : 0 ∈ data.drop (8 + 2048)
    · refine iff_of_true ?_ ⟨hlen, hservice⟩
      rw [if_pos (hnode hservice), if_pos hservice]
      have haddrs : (if k.getaddrinfo.ret = 0 then k.getaddrinfo.addrs else []).length < 2 ^ 22 := by
        have hfew := k.getaddrinfo.few
        split
        · exact hfew
        · simp
      generalize (if k.getaddrinfo.ret = 0 then k.getaddrinfo.addrs else []) = addrs at haddrs ⊢
      have hbody : ∀ name, (canonnameBytes name ++ intBytes addrs.length ++
          addrs.flatMap Addrinfo.bytes).length < 2 ^ 30 := by
        intro name
        have hname := length_canonnameBytes name
        have hall := length_addrinfos addrs
        simp only [List.length_append, length_intBytes, hname, MAX_NODE_LEN]
        omega
      generalize hbytes : (canonnameBytes _ ++ intBytes addrs.length ++
          addrs.flatMap Addrinfo.bytes) = body
      have hlt : body.length < 2 ^ 30 := hbytes ▸ hbody _
      have hsize : toSize (body.length : Int) = body.length := by
        unfold toSize
        omega
      apply answer_inside
      · simp [hsize]
      · simp only [partBytes, List.length_cons, List.length_nil, List.map_cons, List.map_nil,
          List.sum_cons, List.sum_nil, hsize]
        omega
    · rw [if_neg hservice]
      simp only [hservice, and_false, iff_false, ne_eq, not_not]
      split <;> rfl
  · rw [if_neg (c := 24 + 2048 + 128 + 4 ≤ data.length) (by omega)]
    simp [hlen]

end

theorem process_eq {k : Kernel} {tracked : Int → Bool} (h8 : 8 ≤ data.length) :
    ProcessWebSocketMessage k tracked data = handle k tracked data (word 4 data) := by
  unfold ProcessWebSocketMessage
  rw [if_neg (Nat.not_lt_of_le h8), uint32_bind, if_pos (by omega)]

/-- A handler stays within the payload and its own buffers, whatever the system call returns, exactly where
the payload fits. -/
theorem handlers_stay_inside (p : Payload) (tracked : Int → Bool) :
    (∀ k : Kernel, ProcessWebSocketMessage k tracked p.bytes ≠ .error .outside) ↔
      Fits tracked p.bytes := by
  have h8 := p.header
  have hsmall := p.small
  have hne : Nonempty Kernel := ⟨Kernel.quiet⟩
  unfold Fits
  simp only [process_eq h8]
  generalize word 4 p.bytes = function
  split
  · simp only [handle, socket_inside h8, forall_const]
  · simp only [handle, socketpair_inside h8, forall_const]
  · simp only [handle, shutdown_inside h8, forall_const]
  · simp only [handle, bind_inside h8, forall_const]
  · simp only [handle, connect_inside h8 hsmall, forall_const]
  · simp only [handle, listen_inside h8, forall_const]
  · simp only [handle, accept_inside h8, forall_const]
  · simp only [handle, Getsockname, addressCall_inside h8, forall_const]
  · simp only [handle, Getpeername, addressCall_inside h8, forall_const]
  · simp only [handle, send_inside h8 hsmall, forall_const]
  · exact recv_inside h8
  · simp only [handle, sendto_inside h8 hsmall, forall_const]
  · simp only [handle, recvfrom_inside h8, forall_const]
  · simp only [handle, getsockopt_inside h8, forall_const]
  · simp only [handle, setsockopt_inside h8 hsmall, forall_const]
  · simp only [handle, getaddrinfo_inside h8, forall_const]
  · -- the function has no handler, or one that does nothing
    refine iff_of_true (fun k => ?_) trivial
    unfold handle
    split <;> first | contradiction | simp [unimplemented]

/-- A message of 8 bytes that asks for a socket: its three fields are behind the payload. -/
theorem socket_short : ¬ ∀ (p : Payload) (tracked : Int → Bool) (k : Kernel),
    ProcessWebSocketMessage k tracked p.bytes ≠ .error .outside := by
  intro h
  exact h ⟨[0, 0, 0, 0, 1, 0, 0, 0], by simp, by simp⟩ (fun _ => false) Kernel.quiet rfl

end Proxy
