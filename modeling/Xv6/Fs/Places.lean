import Xv6.Fs.Syscall
import Xv6.Lib.Hoare

/-!
Contract: where an inode keeps its block numbers, and how the block layer's
logging fails. An inode keeps block numbers at places: its direct slots, its
indirect slot, and the entries of its indirect block. `log_write` changes the
transaction only or panics; the panics of the log are the failures a triple
over the block layer allows (`Allowed`): every panic but `bfree`'s.

Owns: `Place`, `Dinode.blockAt` with what each kind of change to an inode's
addresses does to it, `Allowed`, and the rules for a `log_write` inside a triple.

Does not own: what a write through `bmap` keeps (`Xv6.Fs.DataView`).
-/

namespace Xv6.Fs

open Hoare

/-- Where an inode keeps a block number. -/
inductive Place where
  | direct (j : Fin nDirect)
  | indirect
  | entry (k : Fin nIndirect)
  deriving DecidableEq

/-- The block number `din` keeps at a place; the entries are read from its
indirect block in `blocks`. -/
def Dinode.blockAt (din : Dinode) (blocks : Nat → Block) : Place → Nat
  | .direct j => din.addrs (directSlot j)
  | .indirect => din.addrs indirectSlot
  | .entry k => if din.addrs indirectSlot = 0 then 0 else (blocks (din.addrs indirectSlot)).word k

/-- Writing a block other than the indirect one moves no place. -/
theorem Dinode.blockAt_update_blocks (din : Dinode) (blocks : Nat → Block) {b : Nat}
    (notIndirect : din.addrs indirectSlot ≠ b) (blk : Block) (p : Place) :
    din.blockAt (Function.update blocks b blk) p = din.blockAt blocks p := by
  cases p with
  | direct j => rfl
  | indirect => rfl
  | entry k => simp only [Dinode.blockAt, Function.update_of_ne notIndirect]

/-- Setting direct slot `j` to `a`: that place keeps `a`, every other what it kept. -/
theorem Dinode.blockAt_setDirect (din : Dinode) (blocks : Nat → Block) (j : Fin nDirect) (a : Nat)
    (p : Place) :
    { din with addrs := Function.update din.addrs (directSlot j) a }.blockAt blocks p =
      if p = .direct j then a else din.blockAt blocks p := by
  have indirect : Function.update din.addrs (directSlot j) a indirectSlot = din.addrs indirectSlot :=
    Function.update_of_ne (directSlot_ne_indirectSlot j).symm _ _
  cases p with
  | direct j' =>
    by_cases same : j' = j
    · subst same
      simp [Dinode.blockAt]
    · have slots : directSlot j' ≠ directSlot j := fun eq => same (Fin.castSucc_injective _ eq)
      simp [Dinode.blockAt, Function.update_of_ne slots, same]
  | indirect => simp [Dinode.blockAt, indirect]
  | entry k => simp [Dinode.blockAt, indirect]

/-- Writing `a` into entry `w` of the indirect block `ind`: that place keeps `a`,
every other what it kept. -/
theorem Dinode.blockAt_setEntry (din : Dinode) (blocks : Nat → Block) {ind : Nat}
    (slot : din.addrs indirectSlot = ind) (there : ind ≠ 0) {w : Nat} (entry : w < nIndirect) {a : Nat}
    (fits : a < 2 ^ 32) (p : Place) :
    din.blockAt (Function.update blocks ind ((blocks ind).setWord w a)) p =
      if p = .entry ⟨w, entry⟩ then a else din.blockAt blocks p := by
  subst slot
  cases p with
  | direct j => simp [Dinode.blockAt]
  | indirect => simp [Dinode.blockAt]
  | entry k =>
    by_cases same : k.val = w
    · have : k = ⟨w, entry⟩ := Fin.ext same
      subst this
      simp [Dinode.blockAt, there, Block.word_setWord_self _ _ fits]
    · have other : k ≠ ⟨w, entry⟩ := fun eq => same (congrArg Fin.val eq)
      simp [Dinode.blockAt, there, other, Block.word_setWord_of_ne _ _ same]

/-- A block of zeros put into the empty indirect slot: that place keeps it, every
entry still nothing. -/
theorem Dinode.blockAt_setIndirect (din : Dinode) (blocks : Nat → Block) (absent : din.addrs indirectSlot = 0)
    {b : Nat} (nz : b ≠ 0) (p : Place) :
    { din with addrs := Function.update din.addrs indirectSlot b }.blockAt
        (Function.update blocks b Block.zero) p =
      if p = .indirect then b else din.blockAt blocks p := by
  cases p with
  | direct j => simp [Dinode.blockAt, Function.update_of_ne (directSlot_ne_indirectSlot j)]
  | indirect => simp [Dinode.blockAt]
  | entry k => simp [Dinode.blockAt, absent, nz]

/-- The failures allowed: every panic but `bfree`'s. -/
def Allowed (e : String) : Prop :=
  e ≠ "freeing free block"

instance (e : String) : Decidable (Allowed e) :=
  inferInstanceAs (Decidable (e ≠ _))

/-- `log_write` fails with an allowed panic or changes only the transaction. -/
theorem logWrite_run (b : Nat) (s : FileSys) :
    (∃ e, Allowed e ∧ (logWrite b).run s = .error e) ∨
      ∃ t, (logWrite b).run s = pure ((), { s with trans := t }) := by
  simp only [logWrite, StateT.run_bind, StateT.run_get, pure_bind]
  split
  · exact .inl ⟨_, by simp [Allowed], rfl⟩
  · split
    · exact .inl ⟨_, by simp [Allowed], rfl⟩
    · split
      · exact .inr ⟨s.trans, rfl⟩
      · exact .inr ⟨_, rfl⟩

/-- A step after `log_write` that holds from every transaction. -/
theorem holds_logWrite_bind {β : Type} {R : β → FileSys → Prop} {s : FileSys} {b : Nat}
    {f : Unit × FileSys → Except String (β × FileSys)}
    (rest : ∀ t, Holds R Allowed (f ((), { s with trans := t }))) :
    Holds R Allowed ((logWrite b).run s >>= f) := by
  rcases logWrite_run b s with ⟨e, allowed, ran⟩ | ⟨t, ran⟩
  · rw [ran, error_bind, holds_error]; exact allowed
  · rw [ran]; exact rest t

/-- `log_write` as the last step, from every transaction. -/
theorem holds_logWrite {R : Unit → FileSys → Prop} {s : FileSys} {b : Nat}
    (rest : ∀ t, R () { s with trans := t }) : Holds R Allowed ((logWrite b).run s) := by
  rcases logWrite_run b s with ⟨e, allowed, ran⟩ | ⟨t, ran⟩
  · rw [ran, holds_error]; exact allowed
  · rw [ran, holds_pure]; exact rest t

/-- `balloc`'s search stops at a block of the disk whose bit is clear. -/
theorem freeBlock_spec {bitmap : Nat → Bool} {b : Nat} (found : freeBlock bitmap = some b) :
    b < fsSize ∧ bitmap b = false := by
  unfold freeBlock at found
  have test := List.find?_some found
  exact ⟨List.mem_range.mp (List.mem_of_find?_eq_some found), by simpa using test⟩

end Xv6.Fs
