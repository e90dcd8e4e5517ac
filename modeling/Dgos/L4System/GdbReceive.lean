import Dgos.L4System.GdbReply

/-!
# The receiver of the GDB stub (kernel/arch/x86_64/gdbstub.cc)

`gdbstub_t::data_received` gets what the serial port has received in chunks of any size. It looks
for `$`, collects the payload up to `#`, reads two digits, answers with `+` or `-` and hands the
payload to `handle_packet`. Outside a packet the byte 3 is handed to `handle_packet` too (the
interrupt of the client) and any other byte is dropped; when the last byte of a chunk was dropped
the call ends with a `-`. The buffer takes 8175 bytes; the byte behind the last one ends the
packet, which is dropped.

A stream is made of `Frame`s and an unfinished one, `Rest`. A packet's body is a sequence of
bytes other than `#` and `}`, and of pairs of `}` and any byte.

Results:
* `receive_right`: every stream is made of frames, and however it is cut into chunks,
  `handle_packet` is called once for each packet that fits and whose digits match, with its
  unescaped payload, and once for each interrupt, in order; the calls and the answers to packets
  do not depend on the chunks. Where no digits stand behind a packet, `from_hex` decides.
* `interrupt_and_chunks`: `handle_packet` is called for a stream without any packet, the answers
  to bytes outside packets depend on the chunks, a packet without digits is accepted and a long
  one is dropped.
-/
namespace Dgos.L4.GdbReceive

open RemoteSerial List Option
open UInt8 (ofInt)
open GdbReply (maxBufferSize)

/-! ## The code -/

/-- mirrors gdbstub.cc:250-256 -/
inductive RxState where
  | idle
  | getline
  | getlineEscaped
  | chksum1
  | chksum2
  deriving DecidableEq, Repr

/-- The members the receiver uses; `cmdBuf` are the first `cmd_index` bytes of `cmd_buf`. -/
structure Rx where
  cmdState : RxState
  cmdBuf : List UInt8
  cmdSum : UInt8
  cmdChecksum : UInt8
  deriving DecidableEq, Repr

/-- What can be seen from outside. `nak` and `garbage` both write `-`. -/
inductive Ev where
  | ack
  | nak
  /-- the `-` at the end of a call -/
  | garbage
  | handlePacket (payload : List UInt8)
  deriving DecidableEq, Repr

/-- `data_received` within its loop. -/
structure Call where
  rx : Rx
  nonsense : Bool
  out : List Ev

/-- mirrors gdbstub.cc:464-474 -/
def fromHex (ch : UInt8) : Int :=
  if 0x30 ≤ ch ∧ ch ≤ 0x39 then ch.toNat - 0x30
  else if 0x41 ≤ ch ∧ ch ≤ 0x46 then ch.toNat + 10 - 0x41
  else if 0x61 ≤ ch ∧ ch ≤ 0x66 then ch.toNat + 10 - 0x61
  else -1

/-- One round of the loop. `handle_packet` always returns to the state `IDLE`.
mirrors gdbstub.cc:824-891 -/
def byteReceived (d : Call) (ch : UInt8) : Call :=
  let rx := d.rx
  match rx.cmdState with
  | .idle =>
    if ch = 0x24 then
      { d with
        rx := { rx with cmdBuf := [], cmdSum := 0, cmdState := .getline }
        nonsense := false }
    else if ch = 3 then
      { rx := { rx with cmdBuf := [3], cmdState := .idle }
        nonsense := false
        out := d.out ++ [.handlePacket [3]] }
    else { d with nonsense := true }
  | .getline =>
    if maxBufferSize - 1 ≤ rx.cmdBuf.length then { d with rx := { rx with cmdState := .idle } }
    else if ch = 0x7d then
      { d with rx := { rx with cmdSum := rx.cmdSum + ch, cmdState := .getlineEscaped } }
    else if ch ≠ 0x23 then
      { d with rx := { rx with cmdSum := rx.cmdSum + ch, cmdBuf := rx.cmdBuf ++ [ch] } }
    else { d with rx := { rx with cmdState := .chksum1 } }
  | .getlineEscaped =>
    { d with
      rx := { rx with
        cmdSum := rx.cmdSum + ch
        cmdBuf := rx.cmdBuf ++ [ch ^^^ 0x20]
        cmdState := .getline } }
  | .chksum1 =>
    { d with rx := { rx with cmdChecksum := UInt8.ofInt (fromHex ch * 16), cmdState := .chksum2 } }
  | .chksum2 =>
    let checksum := rx.cmdChecksum ||| UInt8.ofInt (fromHex ch)
    if rx.cmdSum = checksum then
      { rx := { rx with cmdChecksum := checksum, cmdState := .idle }
        nonsense := false
        out := d.out ++ [.ack, .handlePacket rx.cmdBuf] }
    else
      { d with
        rx := { rx with cmdChecksum := checksum, cmdState := .idle }
        out := d.out ++ [.nak] }

/-- mirrors gdbstub.cc:819-898 -/
def dataReceived (rx : Rx) (data : List UInt8) : Rx × List Ev :=
  let d := data.foldl byteReceived ⟨rx, false, []⟩
  if d.nonsense then ({ d.rx with cmdState := .idle }, d.out ++ [.garbage]) else (d.rx, d.out)

/-- One call for each chunk. -/
def received (rx : Rx) : List (List UInt8) → Rx × List Ev
  | [] => (rx, [])
  | data :: chunks =>
    let (rx, out) := dataReceived rx data
    let (rx, out') := received rx chunks
    (rx, out ++ out')

/-! ## Streams -/

/-- The bytes between `$` and `#`, and the payload they stand for. -/
inductive Body : List UInt8 → List UInt8 → Prop
  | nil : Body [] []
  | plain {c : UInt8} {body payload : List UInt8} : c ≠ pound → c ≠ brace → Body body payload →
      Body (c :: body) (c :: payload)
  | esc {c : UInt8} {body payload : List UInt8} : Body body payload →
      Body (brace :: c :: body) ((c ^^^ 0x20) :: payload)

/-- The bytes `cmd_buf` has room for. -/
def room : Nat := maxBufferSize - 1

inductive Frame where
  | packet (body payload : List UInt8) (h l : UInt8)
  /-- a packet that is dropped at the byte `c` -/
  | overrun (body payload : List UInt8) (c : UInt8)
  | interrupt
  | junk (c : UInt8)

def Frame.text : Frame → List UInt8
  | .packet body _ h l => dollar :: (body ++ [pound, h, l])
  | .overrun body _ c => dollar :: (body ++ [c])
  | .interrupt => [3]
  | .junk c => [c]

def Frame.Ok : Frame → Prop
  | .packet body payload _ _ => Body body payload ∧ payload.length < room
  | .overrun body payload _ => Body body payload ∧ payload.length = room
  | .interrupt => True
  | .junk c => c ≠ dollar ∧ c ≠ 3

/-- The two characters behind a packet are digits. -/
def Frame.Digits : Frame → Prop
  | .packet _ _ h l => hexByte h l ≠ none
  | _ => True

/-- The answer to a frame and the call it causes. -/
def Frame.events : Frame → List Ev
  | .packet body payload h l =>
    if hexByte h l = some (checksum body).toNat then [.ack, .handlePacket payload] else [.nak]
  | .interrupt => [.handlePacket [3]]
  | _ => []

/-- What the code does with a frame; `from_hex` gives a value to every character. -/
def Frame.answers : Frame → List Ev
  | .packet body payload h l =>
    if checksum body = ofInt (fromHex h * 16) ||| ofInt (fromHex l) then
      [.ack, .handlePacket payload]
    else [.nak]
  | f => f.events

/-- An unfinished packet at the end of a stream. -/
inductive Rest : List UInt8 → Prop
  | nil : Rest []
  | line {body payload : List UInt8} : Body body payload → payload.length ≤ room →
      Rest (dollar :: body)
  | escaped {body payload : List UInt8} : Body body payload → payload.length < room →
      Rest (dollar :: (body ++ [brace]))
  | digits {body payload : List UInt8} : Body body payload → payload.length < room →
      Rest (dollar :: (body ++ [pound]))
  | digit {body payload : List UInt8} (h : UInt8) : Body body payload → payload.length < room →
      Rest (dollar :: (body ++ [pound, h]))

open L4.GdbReceive.Frame (text events answers)

/-- The stream is made of the frames and an unfinished one. -/
structure Parses (stream : List UInt8) (frames : List Frame) : Prop where
  ok : ∀ f ∈ frames, f.Ok
  rest : ∃ rest, Rest rest ∧ stream = frames.flatMap Frame.text ++ rest

/-! ## Chunks -/

/-- What the members and the output become, whatever the chunks. -/
def feed (rx : Rx) (data : List UInt8) : Rx × List Ev :=
  let d := data.foldl byteReceived ⟨rx, false, []⟩
  (d.rx, d.out)

/-- A round neither looks at `nonsense` nor at the output. -/
theorem byteReceived_eq (d : Call) (ch : UInt8) :
    (byteReceived d ch).rx = (byteReceived ⟨d.rx, false, []⟩ ch).rx ∧
      (byteReceived d ch).out = d.out ++ (byteReceived ⟨d.rx, false, []⟩ ch).out := by
  obtain ⟨⟨state, buf, sum, chk⟩, nonsense, out⟩ := d
  cases state <;> simp only [byteReceived] <;> (repeat' split) <;> simp

theorem foldl_byteReceived (data : List UInt8) (d : Call) :
    (data.foldl byteReceived d).rx = (feed d.rx data).1 ∧
      (data.foldl byteReceived d).out = d.out ++ (feed d.rx data).2 := by
  induction data generalizing d with
  | nil => simp [feed]
  | cons ch data ih =>
    obtain ⟨h1, h2⟩ := byteReceived_eq d ch
    obtain ⟨i1, i2⟩ := ih (byteReceived d ch)
    obtain ⟨j1, j2⟩ := ih (byteReceived ⟨d.rx, false, []⟩ ch)
    rw [feed, foldl_cons, foldl_cons, i1, i2, j1, j2, h1, h2, append_assoc]
    exact ⟨rfl, rfl⟩

theorem feed_append (rx : Rx) (data data' : List UInt8) : feed rx (data ++ data') =
      ((feed (feed rx data).1 data').1, (feed rx data).2 ++ (feed (feed rx data).1 data').2) := by
  obtain ⟨h1, h2⟩ := foldl_byteReceived data' (data.foldl byteReceived ⟨rx, false, []⟩)
  rw [feed, foldl_append, h1, h2]
  rfl

theorem feed_cons (rx : Rx) (ch : UInt8) (data : List UInt8) : feed rx (ch :: data) =
      ((feed (feed rx [ch]).1 data).1, (feed rx [ch]).2 ++ (feed (feed rx [ch]).1 data).2) :=
  feed_append rx [ch] data

/-- A byte is dropped only in the state `IDLE`. -/
theorem nonsense_idle (data : List UInt8) (d : Call)
    (h : d.nonsense = true → d.rx.cmdState = .idle) :
    (data.foldl byteReceived d).nonsense = true →
      (data.foldl byteReceived d).rx.cmdState = .idle := by
  induction data generalizing d with
  | nil => exact h
  | cons ch data ih =>
    refine ih _ ?_
    obtain ⟨⟨state, buf, sum, chk⟩, nonsense, out⟩ := d
    cases state <;> simp only [byteReceived] at ⊢ <;> (repeat' split) <;> simp_all

theorem garbage_not_mem_feed (rx : Rx) (data : List UInt8) : Ev.garbage ∉ (feed rx data).2 := by
  induction data generalizing rx with
  | nil => simp [feed]
  | cons ch data ih =>
    rw [feed_cons, mem_append, not_or]
    refine ⟨?_, ih _⟩
    obtain ⟨state, buf, sum, chk⟩ := rx
    cases state <;> simp only [feed, foldl_cons, foldl_nil, byteReceived] <;>
      (repeat' split) <;> simp

theorem dataReceived_eq (rx : Rx) (data : List UInt8) :
    (dataReceived rx data).1 = (feed rx data).1 ∧
      (dataReceived rx data).2.filter (· ≠ .garbage) = (feed rx data).2 := by
  have hn := nonsense_idle data ⟨rx, false, []⟩ (by simp)
  have hf : (feed rx data).2.filter (· ≠ .garbage) = (feed rx data).2 := by
    rw [filter_eq_self]
    intro e he
    simp only [ne_eq, decide_eq_true_eq]
    exact fun h => garbage_not_mem_feed rx data (h ▸ he)
  simp only [feed] at hf ⊢
  simp only [dataReceived]
  generalize data.foldl byteReceived ⟨rx, false, []⟩ = d at *
  obtain ⟨rx', nonsense, out⟩ := d
  cases nonsense with
  | false => exact ⟨rfl, hf⟩
  | true =>
    refine ⟨?_, by simpa using hf⟩
    obtain ⟨state, buf, sum, chk⟩ := rx'
    have : state = .idle := hn rfl
    subst this
    rfl

/-- Chunks change nothing but the answers to dropped bytes. -/
theorem received_eq (rx : Rx) (chunks : List (List UInt8)) :
    (received rx chunks).2.filter (· ≠ .garbage) = (feed rx chunks.flatten).2 := by
  induction chunks generalizing rx with
  | nil => rfl
  | cons data chunks ih =>
    obtain ⟨h1, h2⟩ := dataReceived_eq rx data
    simp only [received, filter_append, flatten_cons, feed_append]
    rw [h2, ih, h1]

/-! ## Frames -/

variable {n : Nat}

/-- A digit the library takes is one `from_hex` takes, with the same value. -/
theorem fromHex_eq {c : UInt8} (h : hexValue c = some n) : fromHex c = n ∧ n < 16 := by
  unfold hexValue at h
  unfold fromHex
  simp only [UInt8.le_iff_toNat_le, UInt8.reduceToNat] at h ⊢
  split_ifs at h ⊢ <;> cases h <;> omega

theorem digits_eq {h l : UInt8} (hn : hexByte h l = some n) :
    (ofInt (fromHex h * 16) ||| ofInt (fromHex l)).toNat = n := by
  unfold hexByte at hn
  split at hn
  · rename_i a b ha hb
    obtain ⟨hfa, ha16⟩ := fromHex_eq ha
    obtain ⟨hfb, hb16⟩ := fromHex_eq hb
    cases hn
    have : ∀ a b : Fin 16, (ofInt ((a.1 : Int) * 16) ||| ofInt (b.1 : Int)).toNat =
        a.1 * 16 + b.1 := by
      decide +kernel
    rw [hfa, hfb]
    exact this ⟨a, ha16⟩ ⟨b, hb16⟩
  · cases hn

variable {frames : List Frame} {f : Frame}

theorem answers_eq (h : f.Digits) : f.answers = f.events := by
  cases f with
  | packet body payload d l =>
    obtain ⟨n, hn⟩ := ne_none_iff_exists'.1 h
    have hsum : checksum body = ofInt (fromHex d * 16) ||| ofInt (fromHex l) ↔
        hexByte d l = some (checksum body).toNat := by
      rw [hn, some.injEq, ← digits_eq hn, ← UInt8.toNat_inj]
      exact eq_comm
    simp only [answers, events, hsum]
  | _ => rfl

section Frames

variable {buf body payload data : List UInt8} {sum chk : UInt8} {rx : Rx}

/-- A body is collected as long as there is room. -/
theorem feed_body (h : Body body payload) (hroom : buf.length + payload.length ≤ room) :
    feed ⟨.getline, buf, sum, chk⟩ body =
      (⟨.getline, buf ++ payload, body.foldl (· + ·) sum, chk⟩, []) := by
  induction h generalizing buf sum with
  | nil => simp [feed]
  | @plain c body payload hh hb _ ih =>
    have hlen : ¬ maxBufferSize - 1 ≤ buf.length := by
      simp only [length_cons, room] at hroom
      omega
    have hstep : feed ⟨.getline, buf, sum, chk⟩ [c] =
        (⟨.getline, buf ++ [c], sum + c, chk⟩, []) := by
      have h1 : c ≠ 0x7d := hb
      have h2 : c ≠ 0x23 := hh
      simp [feed, byteReceived, hlen, h1, h2]
    rw [feed_cons, hstep, ih (by simp at hroom ⊢; omega)]
    simp
  | @esc c body payload _ ih =>
    have hlen : ¬ maxBufferSize - 1 ≤ buf.length := by
      simp only [length_cons, room] at hroom
      omega
    have hstep : feed ⟨.getline, buf, sum, chk⟩ [brace, c] =
        (⟨.getline, buf ++ [c ^^^ 0x20], sum + brace + c, chk⟩, []) := by
      simp [feed, byteReceived, hlen, brace]
    rw [show brace :: c :: body = [brace, c] ++ body from rfl, feed_append, hstep,
      ih (by simp at hroom ⊢; omega)]
    simp

theorem feed_dollar : feed ⟨.idle, buf, sum, chk⟩ [dollar] = (⟨.getline, [], 0, chk⟩, []) := rfl

theorem feed_line (h : Body body payload) (hroom : payload.length ≤ room) :
    feed ⟨.idle, buf, sum, chk⟩ (dollar :: (body ++ data)) =
      feed ⟨.getline, payload, checksum body, chk⟩ data := by
  rw [feed_cons, feed_dollar, feed_append, feed_body h (by simpa using hroom)]
  rfl

/-- The end of a line for which there was room. -/
theorem feed_pound (h : buf.length < room) :
    feed ⟨.getline, buf, sum, chk⟩ (pound :: data) = feed ⟨.chksum1, buf, sum, chk⟩ data := by
  have : ¬ maxBufferSize - 1 ≤ buf.length := not_le.2 h
  simp [feed, byteReceived, this, pound]

theorem feed_frame (hrx : rx.cmdState = .idle) (hok : f.Ok) :
    ∃ rx', rx'.cmdState = .idle ∧ feed rx f.text = (rx', f.answers) := by
  obtain ⟨state, buf, sum, chk⟩ := rx
  obtain rfl : state = .idle := hrx
  cases f with
  | packet body payload h l =>
    obtain ⟨hb, hlt⟩ := hok
    refine ⟨⟨.idle, payload, checksum body, ofInt (fromHex h * 16) ||| ofInt (fromHex l)⟩, rfl, ?_⟩
    rw [text, feed_line hb (by omega), feed_pound hlt]
    simp only [feed, foldl_cons, foldl_nil, byteReceived, answers]
    split <;> rfl
  | overrun body payload c =>
    obtain ⟨hb, heq⟩ := hok
    rw [text, feed_line hb (by omega)]
    have hfull : maxBufferSize - 1 ≤ payload.length := heq.ge
    simp [feed, byteReceived, hfull, answers, events]
  | interrupt => exact ⟨_, rfl, rfl⟩
  | junk c =>
    have h1 : c ≠ 0x24 := hok.1
    have h2 : c ≠ 3 := hok.2
    simp [feed, text, answers, events, byteReceived, h1, h2]

theorem feed_frames (hrx : rx.cmdState = .idle) (hok : ∀ f ∈ frames, f.Ok) :
    ∃ rx', rx'.cmdState = .idle ∧
      feed rx (frames.flatMap text) = (rx', frames.flatMap answers) := by
  induction frames generalizing rx with
  | nil => exact ⟨rx, hrx, rfl⟩
  | cons f frames ih =>
    obtain ⟨rx1, h₁, hf⟩ := feed_frame hrx (hok f mem_cons_self)
    obtain ⟨rx2, h₂, hfs⟩ := ih h₁ fun g hg => hok g (mem_cons_of_mem _ hg)
    refine ⟨rx2, h₂, ?_⟩
    rw [flatMap_cons, feed_append, hf, hfs]
    rfl

theorem feed_rest (hrx : rx.cmdState = .idle) {rest : List UInt8} (h : Rest rest) :
    (feed rx rest).2 = [] := by
  obtain ⟨state, buf, sum, chk⟩ := rx
  obtain rfl : state = .idle := hrx
  cases h with
  | nil => rfl
  | line hb hle =>
    rw [← append_nil (dollar :: _), cons_append, feed_line hb hle]
    rfl
  | @escaped body payload hb hlt =>
    have hlen : ¬ maxBufferSize - 1 ≤ payload.length := not_le.2 hlt
    rw [feed_line hb (by omega)]
    simp [feed, byteReceived, hlen, brace]
  | digits hb hlt =>
    rw [feed_line hb (by omega), feed_pound hlt]
    rfl
  | digit h hb hlt =>
    rw [feed_line hb (by omega), feed_pound hlt]
    rfl

end Frames

/-! ## Every stream is made of frames -/

/-- How a packet may go on behind `$` with room for `n` more bytes. -/
inductive Line : Nat → List UInt8 → Prop
  | line {n : Nat} {body payload : List UInt8} : Body body payload → payload.length ≤ n →
      Line n body
  | escaped {n : Nat} {body payload : List UInt8} : Body body payload → payload.length < n →
      Line n (body ++ [brace])
  | done {n : Nat} {body payload rest : List UInt8} : Body body payload → payload.length < n →
      Line n (body ++ pound :: rest)
  | full {n : Nat} {body payload rest : List UInt8} {c : UInt8} : Body body payload →
      payload.length = n → Line n (body ++ c :: rest)

theorem Line.cons {p data : List UInt8} {x : UInt8}
    (hpre : ∀ {body payload}, Body body payload → Body (p ++ body) (x :: payload))
    (h : Line n data) : Line (n + 1) (p ++ data) := by
  cases h with
  | line hb hle => exact .line (hpre hb) (by simpa using hle)
  | escaped hb hlt =>
    rw [← append_assoc]
    exact .escaped (hpre hb) (by simpa using hlt)
  | done hb hlt =>
    rw [← append_assoc]
    exact .done (hpre hb) (by simpa using hlt)
  | full hb heq =>
    rw [← append_assoc]
    exact .full (hpre hb) (by simpa using heq)

theorem exists_line (n : Nat) (data : List UInt8) : Line n data := by
  induction hm : data.length using Nat.strongRecOn generalizing n data with
  | ind m ih =>
    cases data with
    | nil => exact .line .nil (Nat.zero_le _)
    | cons c data =>
      cases n with
      | zero =>
        have h : Line 0 ([] ++ c :: data) := .full .nil rfl
        exact h
      | succ n =>
        by_cases hp : c = pound
        · subst hp
          have h : Line (n + 1) ([] ++ pound :: data) := .done .nil (Nat.succ_pos n)
          exact h
        · by_cases hb : c = brace
          · subst hb
            cases data with
            | nil =>
              have h : Line (n + 1) ([] ++ [brace]) := .escaped .nil (Nat.succ_pos n)
              exact h
            | cons x data =>
              have := ih data.length (by simp at hm; omega) n data rfl
              exact this.cons (p := [brace, x]) .esc
          · have := ih data.length (by simp at hm; omega) n data rfl
            exact this.cons (p := [c]) fun h => .plain hp hb h

theorem Parses.cons (hf : f.Ok) {stream : List UInt8}
    (h : Parses stream frames) : Parses (f.text ++ stream) (f :: frames) := by
  obtain ⟨hok, rest, hrest, rfl⟩ := h
  exact ⟨forall_mem_cons.2 ⟨hf, hok⟩, rest, hrest, by simp⟩

theorem exists_parses (stream : List UInt8) : ∃ frames, Parses stream frames := by
  induction hm : stream.length using Nat.strongRecOn generalizing stream with
  | ind m ih =>
    have hrest : ∀ {rest}, Rest rest → ∃ frames, Parses rest frames :=
      fun h => ⟨[], by simp, _, h, rfl⟩
    cases stream with
    | nil => exact hrest .nil
    | cons c stream =>
      by_cases hd : c = dollar
      · subst hd
        cases exists_line room stream with
        | line hb hle => exact hrest (.line hb hle)
        | escaped hb hlt => exact hrest (.escaped hb hlt)
        | @done body payload rest hb hlt =>
          match rest with
          | [] => exact hrest (.digits hb hlt)
          | [h] => exact hrest (.digit h hb hlt)
          | h :: l :: rest =>
            obtain ⟨frames, hp⟩ := ih rest.length (by simp at hm; omega) rest rfl
            have := Parses.cons (f := .packet body payload h l) ⟨hb, hlt⟩ hp
            exact ⟨_, by simpa [text] using this⟩
        | @full body payload rest c hb heq =>
          obtain ⟨frames, hp⟩ := ih rest.length (by simp at hm; omega) rest rfl
          have := Parses.cons (f := .overrun body payload c) ⟨hb, heq⟩ hp
          exact ⟨_, by simpa [text] using this⟩
      · obtain ⟨frames, hp⟩ := ih stream.length (by simp at hm; omega) stream rfl
        by_cases h3 : c = 3
        · subst h3
          exact ⟨_, Parses.cons (f := .interrupt) trivial hp⟩
        · exact ⟨_, Parses.cons (f := .junk c) ⟨hd, h3⟩ hp⟩

/-! ## Results -/

/-- The stub as `run` starts it. -/
def initRx : Rx := ⟨.idle, [], 0, 0⟩

theorem feed_parsed {stream : List UInt8} (h : Parses stream frames)
    {chunks : List (List UInt8)} (hc : chunks.flatten = stream) :
    (received initRx chunks).2.filter (· ≠ .garbage) = frames.flatMap answers := by
  obtain ⟨hok, rest, hrest, hs⟩ := h
  obtain ⟨rx, hidle, hf⟩ := feed_frames (show initRx.cmdState = .idle from rfl) hok
  rw [received_eq, hc, hs, feed_append, hf]
  simp [feed_rest hidle hrest]

/-- **The receiver.** Every stream is made of frames, and the chunks it comes in do not matter: the
calls of `handle_packet` and the answers to packets are those of its frames, each after its digits
unless it has none. -/
theorem receive_right (stream : List UInt8) :
    (∃ frames, Parses stream frames) ∧ (∀ f : Frame, f.Digits → f.answers = f.events) ∧
      ∀ frames, Parses stream frames → ∀ chunks : List (List UInt8), chunks.flatten = stream →
          (received initRx chunks).2.filter (· ≠ .garbage) = frames.flatMap Frame.answers :=
  ⟨exists_parses stream, fun _ => answers_eq, fun _ hp _ hc => feed_parsed hp hc⟩

/-- A packet in three chunks. -/
theorem receive_right_sample :
    (received initRx [[0x24, 0x4f], [0x4b, 0x23, 0x39], [0x61]]).2.filter (· ≠ .garbage) =
      [.ack, .handlePacket [0x4f, 0x4b]] :=
  (receive_right [0x24, 0x4f, 0x4b, 0x23, 0x39, 0x61]).2.2
    [.packet [0x4f, 0x4b] [0x4f, 0x4b] 0x39 0x61]
    ⟨forall_mem_singleton.2
      ⟨.plain (by decide) (by decide) (.plain (by decide) (by decide) .nil), by decide⟩,
      [], .nil, rfl⟩
    [[0x24, 0x4f], [0x4b, 0x23, 0x39], [0x61]] rfl

theorem body_replicate (n : Nat) : Body (replicate n 0x61) (replicate n 0x61) := by
  induction n with
  | zero => exact .nil
  | succ n ih => exact .plain (by decide) (by decide) ih

/-- An interrupt is no packet, and two dropped bytes are answered once or twice. A packet with `zz`
for its digits is accepted. A packet with more bytes than there is room for is not answered. -/
theorem interrupt_and_chunks : (received initRx [[3]]).2 = [.handlePacket [3]] ∧
    (received initRx [[0x2b, 0x2b]]).2 = [.garbage] ∧
    (received initRx [[0x2b], [0x2b]]).2 = [.garbage, .garbage] ∧
    (received initRx [[0x24, 0x7f, 0x80, 0x23, 0x7a, 0x7a]]).2 =
      [.ack, .handlePacket [0x7f, 0x80]] ∧
    hexByte 0x66 0x30 = some (checksum (replicate room 0x61 ++ [0x61])).toNat ∧
    (received initRx [dollar :: (replicate room 0x61 ++ [0x61, pound, 0x66, 0x30])]).2.filter
      (· ≠ .garbage) = [] := by
  refine ⟨by decide, by decide, by decide, by decide, by decide +kernel, ?_⟩
  refine @feed_parsed [.overrun (replicate room 0x61) (replicate room 0x61) 0x61, .junk pound,
    .junk 0x66, .junk 0x30] _ ⟨?_, [], .nil, ?_⟩ _ (append_nil _)
  · simp [Frame.Ok, body_replicate, pound, dollar]
  · simp [text]

end Dgos.L4.GdbReceive
