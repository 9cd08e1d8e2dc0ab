import Venom.Error
import Venom.Library.StateError
import Venom.Library.ByteFile
import Venom.Library.HashMap
import Venom.Crypto.Primitives

/-! # The world a container lives in

One container file, the rollback state of the device, a source of random bytes and the
clock.  Input and output do not fail by themselves: an access fails when there is no file
or when it reaches past the file's end.

The world remembers the writes issued to the container file, in order.  The file is their
replay, and the files a process may leave behind when it dies are the replays of their
prefixes.
-/

namespace Venom

open Venom.Library (ByteFile HashMap)
open Venom.Library.StateError
open Venom.Crypto (Bytes)

structure World where
  /-- The path of the container file. -/
  path : String
  /-- The container file, if it exists. -/
  file : Option ByteFile
  /-- The writes issued to the container file, oldest first. -/
  issued : List ByteFile.Write
  /-- The local rollback state: last-seen generations by container id in hexadecimal. -/
  rollback : HashMap String Nat
  /-- The random bytes still to be drawn. -/
  rng : Nat → UInt8
  /-- Seconds since the epoch. -/
  now : UInt64

abbrev WorldM := EStateM VnmError World

/-- Run a computation that ends in an error where panics are possible too. -/
def fallible {σ α : Type} (x : EStateM VnmError σ α) : EStateM Fault σ α :=
  x.adaptExcept .error

namespace World

def notFound : VnmError := .io "No such file or directory (os error 2)"

def unexpectedEof : VnmError := .io "failed to fill whole buffer"

/-- The bytes the random source yields next. -/
def drawn (w : World) (n : Nat) : Bytes n := ⟨(List.range n).map w.rng, by simp⟩

/-- Seek to `off` and read exactly `len` bytes. -/
def read (w : World) (off len : Nat) : Except VnmError (List UInt8) :=
  match w.file with
  | none => .error notFound
  | some f =>
    match f.read off len with
    | none => .error unexpectedEof
    | some bytes => .ok bytes

/-- A write to the container file. -/
def write (w : World) (off : Nat) (data : List UInt8) (f : ByteFile) : World :=
  { w with file := some (f.write off data), issued := w.issued ++ [⟨off, data⟩] }

end World

/-- Draw `n` random bytes. -/
def fillBytes {ε : Type} (n : Nat) : EStateM ε World (Bytes n) := fun w =>
  .ok (w.drawn n) { w with rng := fun i => w.rng (n + i) }

/-- Seek to `off` and write all of `data`. -/
def writeBytesAt (off : Nat) (data : List UInt8) : WorldM Unit := fun w =>
  match w.file with
  | none => .error World.notFound w
  | some f => .ok () (w.write off data f)

/-! ## What runs leave alone -/

/-- The world after `n` random bytes have been drawn. -/
def World.skip (w : World) (n : Nat) : World := { w with rng := fun i => w.rng (n + i) }

/-- Between `w` and `w'` `n` random bytes have been drawn. -/
def World.Took (n : Nat) (w w' : World) : Prop := ∀ i, w'.rng i = w.rng (n + i)

theorem World.Took.trans {n k : Nat} {w w' w'' : World} (h : Took n w w') (h' : Took k w' w'') :
    Took (n + k) w w'' := by
  intro i
  rw [h', h, Nat.add_assoc]

/-- Between `w` and `w'` some random bytes may have been drawn. -/
def World.Later (w w' : World) : Prop := ∃ n, World.Took n w w'

namespace World.Later

theorem of_rng {w w' : World} (h : w'.rng = w.rng) : Later w w' := ⟨0, fun i => by rw [h, Nat.zero_add]⟩

theorem refl (w : World) : Later w w := of_rng rfl

theorem trans {w w' w'' : World} (h : Later w w') (h' : Later w' w'') : Later w w'' := by
  obtain ⟨n, hn⟩ := h
  obtain ⟨k, hk⟩ := h'
  exact ⟨n + k, hn.trans hk⟩

end World.Later

/-- Only random bytes have been drawn. -/
def World.OnlyDrew (w w' : World) : Prop :=
  w'.file = w.file ∧ w'.issued = w.issued ∧ w'.rollback = w.rollback ∧ w'.now = w.now ∧ w.Later w'

namespace World.OnlyDrew

theorem refl (w : World) : OnlyDrew w w := ⟨rfl, rfl, rfl, rfl, .refl w⟩

theorem trans {w w' w'' : World} (h : OnlyDrew w w') (h' : OnlyDrew w' w'') : OnlyDrew w w'' :=
  ⟨h'.1.trans h.1, h'.2.1.trans h.2.1, h'.2.2.1.trans h.2.2.1, h'.2.2.2.1.trans h.2.2.2.1,
    h.2.2.2.2.trans h'.2.2.2.2⟩

instance : Std.Refl OnlyDrew := ⟨refl⟩

instance : IsTrans World OnlyDrew := ⟨fun _ _ _ => trans⟩

theorem file {w w' : World} (h : OnlyDrew w w') : w'.file = w.file := h.1

theorem issued {w w' : World} (h : OnlyDrew w w') : w'.issued = w.issued := h.2.1

theorem rollback {w w' : World} (h : OnlyDrew w w') : w'.rollback = w.rollback := h.2.2.1

theorem now {w w' : World} (h : OnlyDrew w w') : w'.now = w.now := h.2.2.2.1

theorem later {w w' : World} (h : OnlyDrew w w') : w.Later w' := h.2.2.2.2

theorem skip (w : World) (n : Nat) : OnlyDrew w (w.skip n) := ⟨rfl, rfl, rfl, rfl, n, fun _ => rfl⟩

end World.OnlyDrew

theorem World.toList_drawn (w : World) (n : Nat) : (w.drawn n).toList = (List.range n).map w.rng := rfl

theorem drawn_congr {w w' : World} (h : ∀ i, w.rng i = w'.rng i) (n : Nat) : w.drawn n = w'.drawn n := by
  apply List.Vector.toList_injective
  rw [World.toList_drawn, World.toList_drawn, show w.rng = w'.rng from funext h]

theorem World.Took.drawn {n : Nat} {w w' : World} (h : Took n w w') (k : Nat) :
    w'.drawn k = (w.skip n).drawn k := @drawn_congr w' (w.skip n) h k

theorem fillBytes_eq {ε : Type} (n : Nat) (w : World) :
    (fillBytes n : EStateM ε World (Bytes n)).run w = .ok (w.drawn n) (w.skip n) := rfl

theorem fillBytes_run {ε : Type} (n : Nat) (w : World) :
    ∃ w', (fillBytes n : EStateM ε World (Bytes n)).run w = .ok (w.drawn n) w' ∧
      World.OnlyDrew w w' := ⟨_, rfl, .skip w n⟩

theorem fillBytes_ok {ε : Type} {n : Nat} {w w' : World} {b : Bytes n}
    (h : (fillBytes n : EStateM ε World (Bytes n)).run w = .ok b w') :
    b = w.drawn n ∧ World.OnlyDrew w w' := by
  cases h
  exact ⟨rfl, .skip w n⟩

theorem fillBytes_took {ε : Type} {n : Nat} {w w' : World} {b : Bytes n}
    (h : (fillBytes n : EStateM ε World (Bytes n)).run w = .ok b w') : World.Took n w w' := by
  cases h
  exact fun _ => rfl

@[simp] theorem World.file_write (w : World) (off : Nat) (data : List UInt8) (f : ByteFile) :
    (w.write off data f).file = some (f.write off data) := rfl

theorem World.file_write_ne_none (w : World) (off : Nat) (data : List UInt8) (f : ByteFile) :
    (w.write off data f).file ≠ none := Option.some_ne_none _

theorem writeBytesAt_run {off : Nat} {data : List UInt8} {w : World} {f : ByteFile}
    (hf : w.file = some f) : (writeBytesAt off data).run w = .ok () (w.write off data f) := by
  change writeBytesAt off data w = _
  rw [writeBytesAt, hf]

theorem writeBytesAt_ok {off : Nat} {data : List UInt8} {w w' : World} {u : Unit}
    (h : (writeBytesAt off data).run w = .ok u w') :
    ∃ f, w.file = some f ∧ w' = w.write off data f := by
  change writeBytesAt off data w = _ at h
  unfold writeBytesAt at h
  cases hf : w.file with
  | none => rw [hf] at h; cases h
  | some f => rw [hf] at h; cases h; exact ⟨f, rfl, rfl⟩

theorem World.read_eq {w : World} {f : ByteFile} {off len : Nat} (hf : w.file = some f)
    (h : off + len ≤ f.size) : w.read off len = .ok (f.slice off len) := by
  simp only [World.read, hf, ByteFile.read_eq h]

theorem World.read_ok {w : World} {off len : Nat} {bytes : List UInt8}
    (h : w.read off len = .ok bytes) :
    ∃ f, w.file = some f ∧ off + len ≤ f.size ∧ bytes = f.slice off len := by
  unfold World.read at h
  cases hf : w.file with
  | none => rw [hf] at h; cases h
  | some f =>
    rw [hf] at h
    dsimp only at h
    cases hr : f.read off len with
    | none => rw [hr] at h; cases h
    | some bs =>
      rw [hr] at h
      cases h
      obtain ⟨hle, hs⟩ := ByteFile.read_eq_some.mp hr
      exact ⟨f, rfl, hle, hs.symm⟩

theorem World.read_error {w : World} {off len : Nat} {e : VnmError} (h : w.read off len = .error e) :
    ∃ reason, e = .io reason := by
  unfold World.read at h
  split at h
  · cases h
    exact ⟨_, rfl⟩
  · split at h
    · cases h
      exact ⟨_, rfl⟩
    · cases h

/-- A read sees the file only. -/
theorem World.read_congr {w w' : World} (h : w'.file = w.file) (off len : Nat) :
    w'.read off len = w.read off len := by
  unfold World.read
  rw [h]

/-! ## Writes -/

namespace World

/-- `w'` is `w` after one write to the file. -/
structure Wrote (off : Nat) (bytes : List UInt8) (w w' : World) : Prop where
  file : ∃ f, w.file = some f ∧ w'.file = some (f.write off bytes)
  issued : w'.issued = w.issued ++ [⟨off, bytes⟩]
  rollback : w'.rollback = w.rollback
  now : w'.now = w.now
  later : w.Later w'

theorem Wrote.of_drew {off : Nat} {bytes : List UInt8} {w w' w'' : World} (h : w.OnlyDrew w')
    (h' : Wrote off bytes w' w'') : Wrote off bytes w w'' := by
  obtain ⟨hfile, hissued, hrollback, hnow, hlater⟩ := h'
  rw [h.file] at hfile
  rw [h.issued] at hissued
  exact ⟨hfile, hissued, hrollback.trans h.rollback, hnow.trans h.now, h.later.trans hlater⟩

/-- `w'` is `w` after a sequence of writes to the file. -/
structure Issued (ws : List ByteFile.Write) (w w' : World) : Prop where
  issued : w'.issued = w.issued ++ ws
  file : w'.file = w.file.map (·.replay ws)
  rollback : w'.rollback = w.rollback
  now : w'.now = w.now
  later : w.Later w'

namespace Issued

variable {ws ws' : List ByteFile.Write} {w w' w'' : World}

theorem trans (h : Issued ws w w') (h' : Issued ws' w' w'') : Issued (ws ++ ws') w w'' := by
  refine ⟨by rw [h'.issued, h.issued, List.append_assoc], ?_, h'.rollback.trans h.rollback,
    h'.now.trans h.now, h.later.trans h'.later⟩
  rw [h'.file, h.file, Option.map_map]
  congr 1
  funext f
  exact (ByteFile.replay_append ws ws' f).symm

theorem of_drew (h : w.OnlyDrew w') : Issued [] w w' :=
  ⟨by rw [h.issued, List.append_nil], by rw [h.file]; cases w.file <;> rfl, h.rollback, h.now,
    h.later⟩

theorem of_wrote {off : Nat} {bytes : List UInt8} (h : Wrote off bytes w w') :
    Issued [⟨off, bytes⟩] w w' := by
  obtain ⟨f, hf, hf'⟩ := h.file
  exact ⟨h.issued, by rw [hf, hf']; rfl, h.rollback, h.now, h.later⟩

theorem drew_trans (h : w.OnlyDrew w') (h' : Issued ws w' w'') : Issued ws w w'' :=
  (of_drew h).trans h'

/-- The file after the writes. -/
theorem file_eq {f : ByteFile} (h : Issued ws w w') (hf : w.file = some f) :
    w'.file = some (f.replay ws) := by rw [h.file, hf]; rfl

end Issued

/-- Between `w` and `w'` only writes that are `good` have been issued. -/
def Issues (good : ByteFile.Write → Prop) (w w' : World) : Prop :=
  ∃ ws, w'.issued = w.issued ++ ws ∧ w'.file = w.file.map (·.replay ws) ∧ ∀ x ∈ ws, good x

namespace Issues

variable {good : ByteFile.Write → Prop} {w w' w'' : World}

theorem refl (w : World) : Issues good w w :=
  ⟨[], (List.append_nil _).symm, by cases w.file <;> rfl, by simp⟩

theorem trans (h : Issues good w w') (h' : Issues good w' w'') : Issues good w w'' := by
  obtain ⟨ws, hi, hf, hg⟩ := h
  obtain ⟨ws', hi', hf', hg'⟩ := h'
  refine ⟨ws ++ ws', by rw [hi', hi, List.append_assoc], ?_, ?_⟩
  · rw [hf', hf, Option.map_map]
    congr 1
    funext f
    exact (ByteFile.replay_append ws ws' f).symm
  · exact fun x hx => (List.mem_append.mp hx).elim (hg x) (hg' x)

theorem mono {good' : ByteFile.Write → Prop} (h : Issues good w w') (hg : ∀ x, good x → good' x) :
    Issues good' w w' := by
  obtain ⟨ws, hi, hf, hw⟩ := h
  exact ⟨ws, hi, hf, fun x hx => hg x (hw x hx)⟩

theorem of_drew (h : w.OnlyDrew w') : Issues good w w' :=
  ⟨[], by rw [h.issued, List.append_nil], by rw [h.file]; cases w.file <;> rfl, by simp⟩

theorem of_wrote {off : Nat} {bytes : List UInt8} (h : Wrote off bytes w w')
    (hg : good ⟨off, bytes⟩) : Issues good w w' := by
  obtain ⟨f, hf, hf'⟩ := h.file
  exact ⟨[⟨off, bytes⟩], h.issued, by rw [hf, hf']; rfl, by simpa using hg⟩

/-- Bytes no write touches are unchanged, and the file does not shrink. -/
theorem agreeOn {off len : Nat} {f : ByteFile} (hf : w.file = some f) (hsize : off + len ≤ f.size)
    (h : Issues (fun x => off + len ≤ x.off ∨ x.off + x.data.length ≤ off) w w') :
    ∃ f', w'.file = some f' ∧ f.size ≤ f'.size ∧ ByteFile.AgreeOn off len f' f := by
  obtain ⟨ws, -, hf', hw⟩ := h
  rw [hf] at hf'
  exact ⟨f.replay ws, hf', ByteFile.size_le_replay ws f, ByteFile.agreeOn_replay hsize hw⟩

end Issues

end World

theorem writeBytesAt_wrote {off : Nat} {data : List UInt8} {w w' : World} {u : Unit}
    (h : (writeBytesAt off data).run w = .ok u w') : World.Wrote off data w w' := by
  obtain ⟨f, hf, rfl⟩ := writeBytesAt_ok h
  exact ⟨⟨f, hf, rfl⟩, rfl, rfl, rfl, .of_rng rfl⟩

/-! ## Faults -/

theorem fallible_ok {σ α : Type} {x : EStateM VnmError σ α} {s s' : σ} {a : α} :
    (fallible x).run s = .ok a s' ↔ x.run s = .ok a s' := by
  change (fallible x) s = _ ↔ x s = _
  unfold fallible EStateM.adaptExcept
  cases x s <;> simp

theorem fallible_error {σ α : Type} {x : EStateM VnmError σ α} {s s' : σ} {e : Fault} :
    (fallible x).run s = .error e s' ↔ ∃ e', x.run s = .error e' s' ∧ e = .error e' := by
  change (fallible x) s = _ ↔ ∃ e', x s = _ ∧ _
  unfold fallible EStateM.adaptExcept
  cases x s with
  | ok a s => simp
  | error e₀ s => simp [eq_comm, and_comm]

end Venom
