import DistributedLabs.Lib.Loop
import Mathlib.Data.List.Basic
import Mathlib.Logic.Equiv.List

/-!
# `Lib.Stream` — buffered reading and writing

A reader and a writer with a buffer, over a connection that carries a sequence of values (bytes, as a rule). What
counts is the sequence and not how it is cut up: each operation is described by what it does to `content`, for
whatever buffer size and whatever pieces.

* `BufReader.read` takes values from the buffer, or from the connection by at most one read of it; `readFull`
  repeats it until it has as many as asked for (`readFull_ok`) or the connection ends (`readFull_short`).
* `BufWriter.write` keeps values in the buffer until it is full (`write_content`); `flush` empties it.
* `uint32_putUint32` — the four bytes of a number in little-endian order.
* `unary` — a value of an encodable type, written down in bytes.

Nothing here mentions a particular message.
-/

namespace DistributedLabs
namespace Lib

/-! ## Reading -/

section Reading

variable {α : Type}

/-- What is still to come on a connection, in the pieces in which it comes. A read of a connection that is still
    up returns something. -/
structure Source (α : Type) where
  chunks : List (List α)
  nonempty : ∀ c ∈ chunks, c ≠ []

/-- What is still to come, however it is cut up. -/
def Source.content (s : Source α) : List α := s.chunks.flatten

/-- At most `k` values of the next piece, or `none` at the end. -/
def Source.read (s : Source α) (k : Nat) : Option (List α × Source α) :=
  match s with
  | ⟨[], _⟩ => none
  | ⟨c :: cs, h⟩ =>
      if hrest : c.drop k = [] then some (c.take k, ⟨cs, fun d hd => h d (List.mem_cons_of_mem _ hd)⟩)
      else some (c.take k, ⟨c.drop k :: cs, by
        intro d hd
        rcases List.mem_cons.mp hd with rfl | hd
        · exact hrest
        · exact h d (List.mem_cons_of_mem _ hd)⟩)

theorem Source.read_none {s : Source α} {k : Nat} (h : s.read k = none) : s.content = [] := by
  unfold Source.read at h
  split at h
  · rfl
  · split at h <;> cases h

theorem Source.read_some {s s' : Source α} {k : Nat} {got : List α} (hk : 0 < k)
    (h : s.read k = some (got, s')) : s.content = got ++ s'.content ∧ got ≠ [] ∧ got.length ≤ k := by
  unfold Source.read at h
  split at h
  · cases h
  · rename_i c cs hne
    have htake : c.take k ≠ [] := by
      have hc := hne c (List.mem_cons_self ..)
      simp [hc, Nat.pos_iff_ne_zero.mp hk]
    split at h
    · rename_i hrest
      cases h
      refine ⟨?_, htake, List.length_take_le ..⟩
      show c ++ cs.flatten = c.take k ++ cs.flatten
      rw [List.take_of_length_le (List.drop_eq_nil_iff.mp hrest)]
    · cases h
      refine ⟨?_, htake, List.length_take_le ..⟩
      show c ++ cs.flatten = c.take k ++ (c.drop k ++ cs.flatten)
      rw [← List.append_assoc, List.take_append_drop]

/-- A reader with a buffer of the given size. -/
structure BufReader (α : Type) where
  size : Nat
  buf : List α
  src : Source α

/-- What is in the buffer, and what is still to come. -/
def BufReader.content (r : BufReader α) : List α := r.buf ++ r.src.content

/-- A read of at most `k` values, `0 < k`. If the buffer is empty, a large read goes past it. -/
def BufReader.read (r : BufReader α) (k : Nat) : Option (List α × BufReader α) :=
  match r.buf with
  | [] =>
      if r.size ≤ k then (r.src.read k).map (fun got => (got.1, { r with src := got.2 }))
      else (r.src.read r.size).map (fun got => (got.1.take k, { r with buf := got.1.drop k, src := got.2 }))
  | _ :: _ => some (r.buf.take k, { r with buf := r.buf.drop k })

theorem BufReader.read_none {r : BufReader α} {k : Nat} (h : r.read k = none) : r.content = [] := by
  unfold BufReader.read at h
  unfold BufReader.content
  split at h
  · rename_i hbuf
    rw [hbuf, List.nil_append]
    split at h
    · exact Source.read_none (Option.map_eq_none_iff.mp h)
    · exact Source.read_none (Option.map_eq_none_iff.mp h)
  · cases h

theorem BufReader.read_some {r r' : BufReader α} {k : Nat} {got : List α} (hk : 0 < k)
    (h : r.read k = some (got, r')) : r.content = got ++ r'.content ∧ got ≠ [] ∧ got.length ≤ k := by
  unfold BufReader.read at h
  split at h
  · rename_i hbuf
    split at h
    · obtain ⟨⟨got, src⟩, hread, heq⟩ := Option.map_eq_some_iff.mp h
      cases heq
      obtain ⟨hcontent, hne, hlen⟩ := Source.read_some hk hread
      refine ⟨?_, hne, hlen⟩
      show r.buf ++ r.src.content = got ++ (r.buf ++ src.content)
      rw [hbuf, List.nil_append, List.nil_append, hcontent]
    · rename_i hsize
      obtain ⟨⟨got, src⟩, hread, heq⟩ := Option.map_eq_some_iff.mp h
      cases heq
      obtain ⟨hcontent, hne, hlen⟩ := Source.read_some (by omega) hread
      refine ⟨?_, by simp [hne, Nat.pos_iff_ne_zero.mp hk], List.length_take_le ..⟩
      show r.buf ++ r.src.content = got.take k ++ (got.drop k ++ src.content)
      rw [hbuf, List.nil_append, hcontent, ← List.append_assoc, List.take_append_drop]
  · rename_i b bs hbuf
    cases h
    refine ⟨?_, by simp [hbuf, Nat.pos_iff_ne_zero.mp hk], List.length_take_le ..⟩
    show r.buf ++ r.src.content = r.buf.take k ++ (r.buf.drop k ++ r.src.content)
    rw [← List.append_assoc, List.take_append_drop]

/-- The connection has ended, before the first value or after it. -/
inductive ReadErr where
  | eof
  | unexpectedEof
deriving DecidableEq, Repr

/-- A read in progress: what has been read so far, and whether the end has been met. -/
structure Filling (α : Type) where
  got : List α
  rdr : BufReader α
  eof : Bool

/-- One round of the loop of `readFull`, or `none` if it is over. -/
def Filling.step (k : Nat) (x : Filling α) : Option (Filling α) :=
  if x.got.length < k ∧ x.eof = false then
    match x.rdr.read (k - x.got.length) with
    | none => some { x with eof := true }
    | some (more, rdr) => some { x with got := x.got ++ more, rdr := rdr }
  else none

/-- Reads exactly `k` values. A round reads a value or meets the end. -/
def BufReader.readFull (r : BufReader α) (k : Nat) : Option (Except ReadErr (List α) × BufReader α) :=
  (loopIn (Filling.step k) (k + 2) ⟨[], r, false⟩).map (fun x =>
    if k ≤ x.got.length then (.ok x.got, x.rdr)
    else if x.got = [] then (.error .eof, x.rdr)
    else (.error .unexpectedEof, x.rdr))

/-- What has been read and what is to come make up what there was. -/
structure FillingOk (all : List α) (k : Nat) (x : Filling α) : Prop where
  split : all = x.got ++ x.rdr.content
  length : x.got.length ≤ k
  ended : x.eof = true → x.rdr.content = []

theorem FillingOk.step {all : List α} {k : Nat} {x x' : Filling α} (h : FillingOk all k x)
    (hstep : x.step k = some x') : FillingOk all k x' := by
  unfold Filling.step at hstep
  split at hstep
  · rename_i hgo
    split at hstep
    · rename_i hread
      cases hstep
      exact ⟨h.split, h.length, fun _ => BufReader.read_none hread⟩
    · rename_i more rdr hread
      obtain ⟨hcontent, _, hlen⟩ := BufReader.read_some (by omega) hread
      cases hstep
      refine ⟨?_, ?_, fun heof => absurd heof (by simp [hgo.2])⟩
      · show all = x.got ++ more ++ rdr.content
        rw [List.append_assoc, ← hcontent, h.split]
      · show (x.got ++ more).length ≤ k
        rw [List.length_append]
        omega
  · cases hstep

/-- A round reads something or meets the end. -/
theorem Filling.step_measure {k : Nat} {x x' : Filling α} (hstep : x.step k = some x') :
    (k - x'.got.length) + (if x'.eof then 0 else 1) < (k - x.got.length) + (if x.eof then 0 else 1) := by
  unfold Filling.step at hstep
  split at hstep
  · rename_i hgo
    split at hstep
    · cases hstep
      simp [hgo.2]
    · rename_i more rdr hread
      obtain ⟨_, hne, _⟩ := BufReader.read_some (by omega) hread
      have hpos : 0 < more.length := List.length_pos_iff.mpr hne
      cases hstep
      simp only [List.length_append, hgo.2]
      omega
  · cases hstep

theorem Filling.step_none {k : Nat} {x : Filling α} (h : x.step k = none) : k ≤ x.got.length ∨ x.eof = true := by
  unfold Filling.step at h
  split at h
  · split at h <;> cases h
  · rename_i hstop
    rcases Nat.lt_or_ge x.got.length k with hlt | hge
    · exact Or.inr (Bool.of_not_eq_false (fun heof => hstop ⟨hlt, heof⟩))
    · exact Or.inl hge

/-- The loop ends, with all it was to read or at the end of the connection. -/
theorem filled (r : BufReader α) (k : Nat) :
    ∃ x, loopIn (Filling.step k) (k + 2) ⟨[], r, false⟩ = some x ∧ FillingOk r.content k x ∧
      (k ≤ x.got.length ∨ x.eof = true) := by
  have hdec : ∀ x x' : Filling α, x.step k = some x' →
      (k - x'.got.length) + (if x'.eof then 0 else 1) < (k - x.got.length) + (if x.eof then 0 else 1) :=
    fun _ _ hstep => Filling.step_measure hstep
  obtain ⟨x, hx⟩ := loopIn_terminates hdec (n := k + 2) (x := ⟨[], r, false⟩) (by simp)
  have hstart : FillingOk r.content k ⟨[], r, false⟩ := ⟨rfl, Nat.zero_le _, fun h => Bool.noConfusion h⟩
  obtain ⟨hok, hend⟩ := loopIn_invariant (P := FillingOk r.content k) (fun _ _ h hstep => h.step hstep) hstart hx
  exact ⟨x, hx, hok, Filling.step_none hend⟩

/-- **`readFull` reads what it is asked for**, if there is so much. -/
theorem BufReader.readFull_ok {r : BufReader α} {k : Nat} (h : k ≤ r.content.length) :
    ∃ r', r.readFull k = some (.ok (r.content.take k), r') ∧ r'.content = r.content.drop k := by
  obtain ⟨x, hx, hok, hend⟩ := filled r k
  have hlen : k ≤ x.got.length := by
    rcases hend with hlen | heof
    · exact hlen
    · rw [hok.split, hok.ended heof, List.append_nil] at h
      exact h
  have hgot : x.got.length = k := Nat.le_antisymm hok.length hlen
  refine ⟨x.rdr, ?_, ?_⟩
  · rw [BufReader.readFull, hx, Option.map_some, if_pos hlen, hok.split, List.take_left' hgot]
  · rw [hok.split, List.drop_left' hgot]

/-- **`readFull` says how it failed**, if there is less. -/
theorem BufReader.readFull_short {r : BufReader α} {k : Nat} (h : r.content.length < k) :
    ∃ r', r.readFull k = some (.error (if r.content = [] then .eof else .unexpectedEof), r') ∧
      r'.content = [] := by
  obtain ⟨x, hx, hok, hend⟩ := filled r k
  have hle : x.got.length ≤ r.content.length := by
    rw [hok.split, List.length_append]
    exact Nat.le_add_right ..
  have hshort : ¬ k ≤ x.got.length := by omega
  have hrest : x.rdr.content = [] := hok.ended (hend.resolve_left hshort)
  have hgot : r.content = x.got := by rw [hok.split, hrest, List.append_nil]
  refine ⟨x.rdr, ?_, hrest⟩
  rw [BufReader.readFull, hx, Option.map_some, if_neg hshort, hgot]
  split <;> rfl

end Reading

/-! ## Writing -/

section Writing

variable {α : Type}

/-- A writer with a buffer of the given size; `out` are the writes it has made to the connection. -/
structure BufWriter (α : Type) where
  size : Nat
  buf : List α
  out : List (List α)

/-- What has been written, whether it has left the buffer or not. -/
def BufWriter.content (w : BufWriter α) : List α := w.out.flatten ++ w.buf

/-- One round of the loop of `write`, or `none` if what is left fits into the buffer. With an empty buffer it is
    written as it is; otherwise the buffer is filled and flushed. -/
def BufWriter.step (x : BufWriter α × List α) : Option (BufWriter α × List α) :=
  let room := x.1.size - x.1.buf.length
  if room < x.2.length then
    match x.1.buf with
    | [] => some ({ x.1 with out := x.1.out ++ [x.2] }, [])
    | _ :: _ => some ({ x.1 with buf := [], out := x.1.out ++ [x.1.buf ++ x.2.take room] }, x.2.drop room)
  else none

/-- `write`: a loop that fills the buffer and passes it on. -/
def BufWriter.write (w : BufWriter α) (p : List α) : Option (BufWriter α) :=
  (loopIn BufWriter.step (2 * p.length + 2) (w, p)).map (fun x => { x.1 with buf := x.1.buf ++ x.2 })

/-- `flush`: one write to the connection, if there is something in the buffer. -/
def BufWriter.flush (w : BufWriter α) : BufWriter α :=
  match w.buf with
  | [] => w
  | _ :: _ => { w with buf := [], out := w.out ++ [w.buf] }

/-- A round passes on what it takes, and there are only so many. -/
theorem BufWriter.step_content {x x' : BufWriter α × List α} (h : BufWriter.step x = some x') :
    x'.1.content ++ x'.2 = x.1.content ++ x.2 ∧
      2 * x'.2.length + min x'.1.buf.length 1 < 2 * x.2.length + min x.1.buf.length 1 := by
  unfold BufWriter.step at h
  dsimp only at h
  split at h
  · rename_i hroom
    split at h
    · rename_i hbuf
      cases h
      unfold BufWriter.content
      simp only [hbuf, List.flatten_append, List.length_nil]
      refine ⟨by simp, ?_⟩
      have hpos : 0 < x.2.length := Nat.lt_of_le_of_lt (Nat.zero_le _) hroom
      omega
    · rename_i b bs hbuf
      cases h
      unfold BufWriter.content
      constructor
      · simp [List.flatten_append]
      · simp only [hbuf, List.length_drop, List.length_cons, List.length_nil]
        omega
  · cases h

/-- What is written follows what was written before. -/
theorem BufWriter.write_content (w : BufWriter α) (p : List α) :
    ∃ w', w.write p = some w' ∧ w'.content = w.content ++ p := by
  have hdec : ∀ x x' : BufWriter α × List α, BufWriter.step x = some x' →
      2 * x'.2.length + min x'.1.buf.length 1 < 2 * x.2.length + min x.1.buf.length 1 :=
    fun _ _ hstep => (BufWriter.step_content hstep).2
  have hrounds : 2 * p.length + min w.buf.length 1 < 2 * p.length + 2 := by omega
  obtain ⟨x, hx⟩ := loopIn_terminates hdec (x := (w, p)) hrounds
  obtain ⟨hcontent, _⟩ := loopIn_invariant (P := fun x => x.1.content ++ x.2 = w.content ++ p)
    (fun x x' hP hstep => (BufWriter.step_content hstep).1.trans hP) rfl hx
  refine ⟨{ x.1 with buf := x.1.buf ++ x.2 }, ?_, ?_⟩
  · rw [BufWriter.write, hx, Option.map_some]
  · show x.1.out.flatten ++ (x.1.buf ++ x.2) = w.content ++ p
    rw [← List.append_assoc]
    exact hcontent

theorem BufWriter.flush_content (w : BufWriter α) : w.flush.content = w.content ∧ w.flush.buf = [] := by
  unfold BufWriter.flush
  split
  · rename_i hbuf
    exact ⟨rfl, hbuf⟩
  · unfold BufWriter.content
    simp

end Writing

/-! ## Little-endian numbers -/

/-- Four bytes, the lowest first. -/
def putUint32 (x : UInt32) : List UInt8 :=
  [x.toUInt8, (x >>> 8).toUInt8, (x >>> 16).toUInt8, (x >>> 24).toUInt8]

/-- Reading them back. -/
def uint32 : List UInt8 → UInt32
  | [b0, b1, b2, b3] => b0.toUInt32 ||| b1.toUInt32 <<< 8 ||| b2.toUInt32 <<< 16 ||| b3.toUInt32 <<< 24
  | _ => 0

theorem putUint32_length (x : UInt32) : (putUint32 x).length = 4 := rfl

theorem uint32_putUint32 (x : UInt32) : uint32 (putUint32 x) = x := by
  unfold uint32 putUint32
  apply UInt32.eq_of_toBitVec_eq
  simp only [UInt32.toBitVec_or, UInt32.toBitVec_shiftLeft, UInt8.toBitVec_toUInt32, UInt32.toBitVec_toUInt8,
    UInt32.toBitVec_shiftRight]
  generalize x.toBitVec = v
  have h8 : (UInt32.toBitVec 8 % 32) = 8#32 := by decide
  have h16 : (UInt32.toBitVec 16 % 32) = 16#32 := by decide
  have h24 : (UInt32.toBitVec 24 % 32) = 24#32 := by decide
  rw [h8, h16, h24]
  -- bit `i` comes from the byte it is in
  ext i hi
  simp only [BitVec.getElem_or, BitVec.shiftLeft_eq', BitVec.ushiftRight_eq', BitVec.getElem_setWidth,
    BitVec.getElem_shiftLeft, BitVec.getLsbD_setWidth, BitVec.getLsbD_ushiftRight, BitVec.toNat_ofNat]
  grind

/-! ## Encodings -/

/-- A value in bytes: its number in unary. The plainest encoding there is, for where any will do. -/
def unary {α : Type} [Encodable α] (a : α) : List UInt8 := List.replicate (Encodable.encode a) 0

/-- Reading it back: as many bytes as the number says. -/
def readUnary (α : Type) [Encodable α] (b : List UInt8) : Option α := Encodable.decode b.length

theorem readUnary_unary {α : Type} [Encodable α] (a : α) : readUnary α (unary a) = some a := by
  unfold readUnary unary
  rw [List.length_replicate, Encodable.encodek]

instance encodableChar : Encodable Char := Encodable.ofLeftInverse Char.toNat Char.ofNat Char.ofNat_toNat

instance encodableString : Encodable String :=
  Encodable.ofLeftInverse String.toList String.ofList (fun _ => String.ofList_toList)

instance encodableUInt8 : Encodable UInt8 :=
  Encodable.ofLeftInverse UInt8.toNat UInt8.ofNat (fun _ => UInt8.ofNat_toNat)

instance encodableUInt64 : Encodable UInt64 :=
  Encodable.ofLeftInverse UInt64.toNat UInt64.ofNat (fun _ => UInt64.ofNat_toNat)

end Lib
end DistributedLabs
