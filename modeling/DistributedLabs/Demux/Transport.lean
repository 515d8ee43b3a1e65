import DistributedLabs.Demux.Client
import DistributedLabs.Lib.Stream

/-!
# `Demux.Transport` — messages on a connection

`tester1/demux/transport.go`: a message goes over the connection as the length of its encoding, in four bytes, and
the encoding. The peer reads the length, then as many bytes as it says.

The encoding is `labgob`'s and any that can be decoded will do (`Codec`); `Unmarshall` is fatal for bytes it cannot
decode, which is `none` here. Writes to the connection succeed: a connection that fails while a message is being
written carries a part of the stream, and `cut` is any part of it. `bufio`, `ReadFull` and the byte order come from
`Lib.Stream`.

The result is `transport_roundtrip`. However the connection cuts the bytes into pieces, and wherever it ends, the peer
reads the messages that lie within what came through, in order and whole, and after them nothing but errors. A message
is never read in part and never mixed with the next: a length of four bytes says where it ends, so encodings of
`2 ^ 32` bytes and more are outside of what is shown.
-/

namespace DistributedLabs
namespace Demux

open Lib

/-! ## The code -/

/-- A request or a reply, under its tag. -/
structure Msg where
  tag : Ttag
  data : Bytes
  ok : Bool
deriving DecidableEq, Repr

/-- `labrpc.Marshall` and `labrpc.Unmarshall`. -/
structure Codec where
  marshall : Msg → Bytes
  unmarshall : Bytes → Option Msg
  unmarshall_marshall : ∀ m, unmarshall (marshall m) = some m

/-- The size of the buffers. -/
def MSGLEN : Nat := 65536

/-- A connection with its two buffers. -/
structure Transport where
  rdr : BufReader UInt8
  wrt : BufWriter UInt8

def newTransport (c : Source UInt8) : Transport :=
  { rdr := { size := MSGLEN, buf := [], src := c }
    wrt := { size := MSGLEN, buf := [], out := [] } }

/-- What `ReadCall` returns as an error. -/
inductive CallErr where
  | read (err : ReadErr)
  | shortRead
deriving DecidableEq, Repr

/-- `ReadCall`: the length, then as many bytes, then the message they encode. -/
def Transport.readCall (t : Transport) (c : Codec) : Option (Except CallErr Msg × Transport) :=
  (t.rdr.readFull 4).bind (fun
    | (.error err, rdr) => some (.error (.read err), { t with rdr := rdr })
    | (.ok header, rdr) =>
        let nbyte := uint32 header
        (rdr.readFull nbyte.toNat).bind (fun
          | (.error err, rdr) => some (.error (.read err), { t with rdr := rdr })
          | (.ok b, rdr) =>
              if b.length ≠ nbyte.toNat then some (.error .shortRead, { t with rdr := rdr })
              else (c.unmarshall b).map (fun m => (.ok m, { t with rdr := rdr }))))

/-- `WriteCall`: the length, the encoding, and a flush. -/
def Transport.writeCall (t : Transport) (c : Codec) (m : Msg) : Option Transport :=
  let b := c.marshall m
  (t.wrt.write (putUint32 (UInt32.ofNat b.length))).bind (fun wrt =>
    (wrt.write b).map (fun wrt => { t with wrt := wrt.flush }))

/-- One `WriteCall` after the other. -/
def Transport.writeCalls (t : Transport) (c : Codec) (ms : List Msg) : Option Transport :=
  ms.foldlM (fun t m => t.writeCall c m) t

/-- What `n` successive `ReadCall`s return. -/
def readCalls (c : Codec) : Nat → Transport → Option (List (Except CallErr Msg))
  | 0, _ => some []
  | n + 1, t => (t.readCall c).bind (fun out => (readCalls c n out.2).map (out.1 :: ·))

/-! ## The stream -/

/-- What a message looks like on the connection. -/
def frame (c : Codec) (m : Msg) : Bytes :=
  putUint32 (UInt32.ofNat (c.marshall m).length) ++ c.marshall m

/-- What the messages look like on the connection. -/
def stream (c : Codec) (ms : List Msg) : Bytes := ms.flatMap (frame c)

section Frames

variable {c : Codec} {m : Msg} {ms : List Msg} {t : Transport}

/-- `WriteCall` adds the frame to what has been written and leaves nothing in the buffer. -/
theorem writeCall_content (t : Transport) (c : Codec) (m : Msg) :
    ∃ t', t.writeCall c m = some t' ∧ t'.wrt.content = t.wrt.content ++ frame c m ∧ t'.wrt.buf = [] := by
  obtain ⟨w₁, hw₁, hc₁⟩ := t.wrt.write_content (putUint32 (UInt32.ofNat (c.marshall m).length))
  obtain ⟨w₂, hw₂, hc₂⟩ := w₁.write_content (c.marshall m)
  obtain ⟨hflush, hbuf⟩ := w₂.flush_content
  refine ⟨{ t with wrt := w₂.flush }, ?_, ?_, hbuf⟩
  · unfold Transport.writeCall
    simp only [hw₁, hw₂, Option.bind_some, Option.map_some]
  · show w₂.flush.content = _
    rw [hflush, hc₂, hc₁, List.append_assoc]
    rfl

theorem writeCalls_content (c : Codec) (ms : List Msg) (t : Transport) (hbuf : t.wrt.buf = []) :
    ∃ t', t.writeCalls c ms = some t' ∧ t'.wrt.content = t.wrt.content ++ stream c ms ∧ t'.wrt.buf = [] := by
  induction ms generalizing t with
  | nil => exact ⟨t, rfl, (List.append_nil _).symm, hbuf⟩
  | cons m ms ih =>
      obtain ⟨t₁, hone, hcontent₁, hbuf₁⟩ := writeCall_content t c m
      obtain ⟨t', hrest, hcontent', hbuf'⟩ := ih t₁ hbuf₁
      refine ⟨t', ?_, ?_, hbuf'⟩
      · unfold Transport.writeCalls
        rw [List.foldlM_cons, hone]
        exact hrest
      · rw [hcontent', hcontent₁, List.append_assoc]
        rfl

/-- The length comes back, since it is below `2 ^ 32`. -/
theorem uint32_length (h : (c.marshall m).length < 2 ^ 32) :
    (uint32 (putUint32 (UInt32.ofNat (c.marshall m).length))).toNat = (c.marshall m).length := by
  rw [uint32_putUint32, UInt32.toNat_ofNat']
  exact Nat.mod_eq_of_lt h

/-- A whole frame in front. -/
theorem readCall_frame {rest : Bytes} (h : (c.marshall m).length < 2 ^ 32)
    (hcontent : t.rdr.content = frame c m ++ rest) :
    ∃ t', t.readCall c = some (.ok m, t') ∧ t'.rdr.content = rest := by
  rw [frame, List.append_assoc] at hcontent
  have hheader := putUint32_length (UInt32.ofNat (c.marshall m).length)
  have hfour : 4 ≤ t.rdr.content.length := by
    rw [hcontent, List.length_append, hheader]
    exact Nat.le_add_right ..
  obtain ⟨r₁, hread₁, hrest₁⟩ := BufReader.readFull_ok hfour
  rw [hcontent, List.take_left' hheader] at hread₁
  rw [hcontent, List.drop_left' hheader] at hrest₁
  have hbody : (c.marshall m).length ≤ r₁.content.length := by
    rw [hrest₁, List.length_append]
    exact Nat.le_add_right ..
  obtain ⟨r₂, hread₂, hrest₂⟩ := BufReader.readFull_ok hbody
  rw [hrest₁, List.take_left' rfl] at hread₂
  rw [hrest₁, List.drop_left' rfl] at hrest₂
  refine ⟨{ t with rdr := r₂ }, ?_, hrest₂⟩
  unfold Transport.readCall
  simp only [hread₁, Option.bind_some, uint32_length h, hread₂, ne_eq, not_true_eq_false, if_false,
    c.unmarshall_marshall, Option.map_some]

/-- Less than a header in front, or nothing. -/
theorem readCall_short (h : t.rdr.content.length < 4) :
    ∃ err t', t.readCall c = some (.error err, t') ∧ t'.rdr.content = [] := by
  obtain ⟨r, hread, hrest⟩ := BufReader.readFull_short h
  refine ⟨.read (if t.rdr.content = [] then .eof else .unexpectedEof), { t with rdr := r }, ?_, hrest⟩
  unfold Transport.readCall
  rw [hread]
  rfl

/-- A part of a frame in front, and nothing behind it. -/
theorem readCall_cut {cut : Nat} (h : (c.marshall m).length < 2 ^ 32) (hcut : cut < (frame c m).length)
    (hcontent : t.rdr.content = (frame c m).take cut) :
    ∃ err t', t.readCall c = some (.error err, t') ∧ t'.rdr.content = [] := by
  have hheader := putUint32_length (UInt32.ofNat (c.marshall m).length)
  have hlen : t.rdr.content.length = cut := by
    rw [hcontent, List.length_take]
    omega
  rcases Nat.lt_or_ge cut 4 with hlt | hge
  · exact readCall_short (hlen ▸ hlt)
  obtain ⟨r₁, hread₁, hrest₁⟩ := BufReader.readFull_ok (hlen.symm ▸ hge)
  have hfront : t.rdr.content.take 4 = putUint32 (UInt32.ofNat (c.marshall m).length) := by
    rw [hcontent, List.take_take, Nat.min_eq_left hge, frame, List.take_left' hheader]
  have hbody : r₁.content.length < (c.marshall m).length := by
    rw [hrest₁, List.length_drop, hlen]
    rw [frame, List.length_append, hheader] at hcut
    omega
  obtain ⟨r₂, hread₂, hrest₂⟩ := BufReader.readFull_short hbody
  refine ⟨.read (if r₁.content = [] then .eof else .unexpectedEof), { t with rdr := r₂ }, ?_, hrest₂⟩
  unfold Transport.readCall
  simp only [hread₁, Option.bind_some, hfront, uint32_length h, hread₂]

/-! ## What the peer reads -/

/-- The first `k` messages are those that lie within the first `cut` bytes of the stream. -/
structure Whole (c : Codec) (ms : List Msg) (cut k : Nat) : Prop where
  le : k ≤ ms.length
  within : (stream c (ms.take k)).length ≤ cut
  most : ∀ k', k' ≤ ms.length → (stream c (ms.take k')).length ≤ cut → k' ≤ k

theorem Whole.nil {cut : Nat} : Whole c [] cut 0 :=
  ⟨Nat.le_refl _, Nat.zero_le _, fun _ hle _ => hle⟩

theorem stream_take_succ {k : Nat} :
    (stream c ((m :: ms).take (k + 1))).length = (frame c m).length + (stream c (ms.take k)).length := by
  rw [List.take_succ_cons, stream, List.flatMap_cons, List.length_append]
  rfl

/-- A first message that fits leaves the rest of the bytes to the others. -/
theorem Whole.cons {cut k : Nat} (h : Whole c ms (cut - (frame c m).length) k) (hfits : (frame c m).length ≤ cut) :
    Whole c (m :: ms) cut (k + 1) := by
  refine ⟨Nat.succ_le_succ h.le, ?_, ?_⟩
  · rw [stream_take_succ]
    have hwithin := h.within
    omega
  · intro k' hle hlen
    cases k' with
    | zero => exact Nat.zero_le _
    | succ k' =>
        rw [stream_take_succ] at hlen
        exact Nat.succ_le_succ (h.most k' (Nat.le_of_succ_le_succ hle) (by omega))

theorem Whole.zero {cut : Nat} (h : cut < (frame c m).length) : Whole c (m :: ms) cut 0 := by
  refine ⟨Nat.zero_le _, Nat.zero_le _, ?_⟩
  intro k' hle hlen
  cases k' with
  | zero => exact Nat.le_refl _
  | succ k' =>
      rw [stream_take_succ] at hlen
      omega

/-- When there is nothing left, all that follows is errors. -/
theorem readCalls_ended (j : Nat) {t : Transport} (h : t.rdr.content = []) :
    ∃ errs : List CallErr, errs.length = j ∧ readCalls c j t = some (errs.map .error) := by
  induction j generalizing t with
  | zero => exact ⟨[], rfl, rfl⟩
  | succ j ih =>
      obtain ⟨err, t', hcall, hrest⟩ := readCall_short (c := c) (t := t) (by rw [h]; decide)
      obtain ⟨errs, hlen, hcalls⟩ := ih hrest
      refine ⟨err :: errs, congrArg Nat.succ hlen, ?_⟩
      rw [readCalls, hcall, Option.bind_some, hcalls]
      rfl

/-- The peer reads the messages that are there as a whole, and then errors. -/
theorem readCalls_cut {cut : Nat} (hsize : ∀ m ∈ ms, (c.marshall m).length < 2 ^ 32)
    (hcontent : t.rdr.content = (stream c ms).take cut) :
    ∃ k, Whole c ms cut k ∧ ∀ j, ∃ errs : List CallErr, errs.length = j ∧
      readCalls c (k + j) t = some ((ms.take k).map .ok ++ errs.map .error) := by
  -- the stream is that of the first message and the rest; `cut` goes down with it
  induction ms generalizing t cut with
  | nil =>
      refine ⟨0, Whole.nil, fun j => ?_⟩
      obtain ⟨errs, hlen, hcalls⟩ := readCalls_ended (c := c) j (hcontent.trans List.take_nil)
      exact ⟨errs, hlen, by rw [Nat.zero_add, hcalls]; rfl⟩
  | cons m ms ih =>
      have hm := hsize m (List.mem_cons_self ..)
      rw [show stream c (m :: ms) = frame c m ++ stream c ms from List.flatMap_cons, List.take_append] at hcontent
      rcases Nat.lt_or_ge cut (frame c m).length with hlt | hge
      · rw [Nat.sub_eq_zero_of_le (Nat.le_of_lt hlt), List.take_zero, List.append_nil] at hcontent
        obtain ⟨err, t', hcall, hrest⟩ := readCall_cut hm hlt hcontent
        refine ⟨0, Whole.zero hlt, fun j => ?_⟩
        rw [Nat.zero_add]
        cases j with
        | zero => exact ⟨[], rfl, rfl⟩
        | succ j =>
            obtain ⟨errs, hlen, hcalls⟩ := readCalls_ended (c := c) j hrest
            refine ⟨err :: errs, congrArg Nat.succ hlen, ?_⟩
            rw [readCalls, hcall, Option.bind_some, hcalls]
            rfl
      · rw [List.take_of_length_le hge] at hcontent
        obtain ⟨t', hcall, hrest⟩ := readCall_frame hm hcontent
        obtain ⟨k, hwhole, hcalls⟩ := ih (fun x hx => hsize x (List.mem_cons_of_mem _ hx)) hrest
        refine ⟨k + 1, hwhole.cons hge, fun j => ?_⟩
        obtain ⟨errs, hlen, hcalls⟩ := hcalls j
        refine ⟨errs, hlen, ?_⟩
        rw [Nat.add_right_comm, readCalls, hcall, Option.bind_some, hcalls]
        rfl

/-- All messages are within the whole stream. -/
theorem Whole.all {cut k : Nat} (h : Whole c ms cut k) (hcut : (stream c ms).length ≤ cut) : k = ms.length := by
  apply Nat.le_antisymm h.le
  apply h.most _ (Nat.le_refl _)
  rw [List.take_length]
  exact hcut

end Frames

/-- **What is written with `WriteCall` is read with `ReadCall`**, in whatever pieces the connection delivers it. If
the connection ends early, the messages that have come as a whole are read, and then errors. -/
theorem transport_roundtrip (c : Codec) (ms : List Msg) (hsize : ∀ m ∈ ms, (c.marshall m).length < 2 ^ 32)
    (conn : Source UInt8) :
    ∃ t, (newTransport conn).writeCalls c ms = some t ∧ t.wrt.out.flatten = stream c ms ∧
      (∀ src : Source UInt8, src.content = t.wrt.out.flatten →
        readCalls c ms.length (newTransport src) = some (ms.map .ok)) ∧
      ∀ (cut : Nat) (src : Source UInt8), src.content = t.wrt.out.flatten.take cut →
        ∃ k, Whole c ms cut k ∧ ∀ j, ∃ errs : List CallErr, errs.length = j ∧
          readCalls c (k + j) (newTransport src) = some ((ms.take k).map .ok ++ errs.map .error) := by
  obtain ⟨t, hwrite, hcontent, hbuf⟩ := writeCalls_content c ms (newTransport conn) rfl
  have hout : t.wrt.out.flatten = stream c ms := by
    rw [BufWriter.content, hbuf, List.append_nil] at hcontent
    exact hcontent
  have hread : ∀ (cut : Nat) (src : Source UInt8), src.content = (stream c ms).take cut →
      ∃ k, Whole c ms cut k ∧ ∀ j, ∃ errs : List CallErr, errs.length = j ∧
        readCalls c (k + j) (newTransport src) = some ((ms.take k).map .ok ++ errs.map .error) :=
    fun cut src hsrc => readCalls_cut hsize hsrc
  refine ⟨t, hwrite, hout, fun src hsrc => ?_, fun cut src hsrc => hread cut src (hout ▸ hsrc)⟩
  rw [hout] at hsrc
  obtain ⟨k, hwhole, hcalls⟩ := hread (stream c ms).length src (hsrc.trans List.take_length.symm)
  obtain rfl := hwhole.all (Nat.le_refl _)
  obtain ⟨errs, hlen, hcalls⟩ := hcalls 0
  obtain rfl := List.length_eq_zero_iff.mp hlen
  rw [Nat.add_zero, List.take_length] at hcalls
  exact hcalls.trans (congrArg some (List.append_nil _))

/-- Tag, flag and data one after the other. -/
def plainCodec : Codec where
  marshall m := putUint32 m.tag ++ (if m.ok then 1 else 0) :: m.data
  unmarshall
    | b0 :: b1 :: b2 :: b3 :: ok :: data => some ⟨uint32 [b0, b1, b2, b3], data, ok = 1⟩
    | _ => none
  unmarshall_marshall := by
    rintro ⟨tag, data, ok⟩
    have htag := uint32_putUint32 tag
    unfold putUint32 at htag ⊢
    cases ok <;> simp [htag]

/-- A request with tag 7 and an empty one after it. -/
theorem transport_roundtrip_two :
    ∃ t, (newTransport ⟨[], by simp⟩).writeCalls plainCodec [⟨7, [1, 2], true⟩, ⟨8, [], false⟩] = some t ∧
      ∀ src : Source UInt8, src.content = t.wrt.out.flatten →
        readCalls plainCodec 2 (newTransport src) = some [.ok ⟨7, [1, 2], true⟩, .ok ⟨8, [], false⟩] := by
  have hsize : ∀ m ∈ [(⟨7, [1, 2], true⟩ : Msg), ⟨8, [], false⟩], (plainCodec.marshall m).length < 2 ^ 32 := by
    decide
  obtain ⟨t, hwrite, _, hread, _⟩ := transport_roundtrip plainCodec _ hsize ⟨[], by simp⟩
  exact ⟨t, hwrite, hread⟩

end Demux
end DistributedLabs
