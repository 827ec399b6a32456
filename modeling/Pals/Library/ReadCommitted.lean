import Mathlib.Data.List.AList
import Mathlib.Logic.Function.Basic
import Mathlib.Logic.Relation

/-! Transactions over a table of rows at the isolation level READ COMMITTED. A
transaction locks a row before it writes to it, its writes are seen by no other one
until it commits, and it holds its locks until it ends. -/
namespace Pals.Library

/-- A transaction in progress: the instant at which it began, and its own versions
of the rows that it has written to. -/
structure Tx (κ ρ : Type) where
  now : Int
  writes : AList fun _ : κ => ρ

section Owned
variable {τ κ ρ : Type} [DecidableEq τ]

def released (holder : κ → Option τ) (t : τ) (k : κ) : Option τ :=
  if holder k = some t then none else holder k

theorem released_of_ne {holder : κ → Option τ} {t other : τ} {k : κ} (hne : other ≠ t)
    (held : holder k = some other) : released holder t k = some other := by
  rw [released, if_neg, held]
  rw [held]
  exact fun he => hne (Option.some.inj he)

def Owned (txs : τ → Option (Tx κ ρ)) (holder : κ → Option τ) : Prop :=
  ∀ t tx, txs t = some tx → ∀ k ∈ tx.writes, holder k = some t

variable {txs : τ → Option (Tx κ ρ)} {holder : κ → Option τ} {t : τ} {k : κ}

theorem Owned.update {holder' : κ → Option τ} {last : Option (Tx κ ρ)} (owned : Owned txs holder)
    (kept : ∀ other k, other ≠ t → holder k = some other → holder' k = some other)
    (mine : ∀ tx ∈ last, ∀ k ∈ tx.writes, holder' k = some t) :
    Owned (Function.update txs t last) holder' := by
  intro other tx h k hk
  by_cases ht : other = t
  · subst ht
    rw [Function.update_self] at h
    exact mine tx h k hk
  · rw [Function.update_of_ne ht] at h
    exact kept other k ht (owned other tx h k hk)

theorem Owned.start (owned : Owned txs holder) (now : Int) :
    Owned (Function.update txs t (some ⟨now, ∅⟩)) holder := by
  refine owned.update (fun _ _ _ => id) ?_
  rintro tx ⟨⟩ k hk
  exact absurd hk (AList.notMem_empty k)

theorem Owned.release (owned : Owned txs holder) :
    Owned (Function.update txs t none) (released holder t) :=
  owned.update (fun _ _ => released_of_ne) fun _ h => nomatch h

variable [DecidableEq κ]

omit [DecidableEq τ] in
theorem Owned.lock (owned : Owned txs holder) (free : holder k = none ∨ holder k = some t) :
    Owned txs (Function.update holder k (some t)) := by
  intro t' tx h k' hk'
  have hheld := owned t' tx h k' hk'
  by_cases hk : k' = k
  · subst hk
    rw [Function.update_self, ← hheld]
    obtain hfree | hmine := free
    · cases hfree.symm.trans hheld
    · exact hmine.symm
  · rw [Function.update_of_ne hk, hheld]

theorem Owned.write (owned : Owned txs holder) {tx : Tx κ ρ} (open' : txs t = some tx)
    (held : holder k = some t) (row : ρ) :
    Owned (Function.update txs t (some { tx with writes := tx.writes.insert k row })) holder := by
  refine owned.update (fun _ _ _ => id) ?_
  rintro tx' ⟨⟩ k' hk'
  obtain rfl | hk' := (AList.mem_insert _).mp hk'
  · exact held
  · exact owned t tx open' k' hk'

end Owned

structure Db (τ κ ρ : Type) [DecidableEq τ] [DecidableEq κ] where
  committed : AList fun _ : κ => ρ
  txs : τ → Option (Tx κ ρ)
  holder : κ → Option τ
  owned : Owned txs holder

namespace Db
variable {τ κ ρ : Type} [DecidableEq τ] [DecidableEq κ]

def empty : Db τ κ ρ := ⟨∅, fun _ => none, fun _ => none, fun _ _ h => nomatch h⟩

def start (db : Db τ κ ρ) (t : τ) (now : Int) : Option (Db τ κ ρ) :=
  if db.txs t = none then
    some { db with
      txs := Function.update db.txs t (some ⟨now, ∅⟩)
      owned := db.owned.start now }
  else none

/-- Another transaction's lock is waited for: there is no step until it is gone. -/
def lock (db : Db τ κ ρ) (t : τ) (k : κ) : Option (Db τ κ ρ) :=
  if free : db.holder k = none ∨ db.holder k = some t then
    some { db with
      holder := Function.update db.holder k (some t)
      owned := db.owned.lock free }
  else none

def write (db : Db τ κ ρ) (t : τ) (k : κ) (row : ρ) : Option (Db τ κ ρ) :=
  match hopen : db.txs t with
  | none => none
  | some tx =>
      if held : db.holder k = some t then
        some { db with
          txs := Function.update db.txs t (some { tx with writes := tx.writes.insert k row })
          owned := db.owned.write hopen held row }
      else none

def release (db : Db τ κ ρ) (t : τ) (committed : AList fun _ : κ => ρ) : Db τ κ ρ where
  committed := committed
  txs := Function.update db.txs t none
  holder := released db.holder t
  owned := db.owned.release

def commit (db : Db τ κ ρ) (t : τ) : Option (Db τ κ ρ) :=
  (db.txs t).map fun tx => db.release t (tx.writes ∪ db.committed)

def rollback (db : Db τ κ ρ) (t : τ) : Db τ κ ρ := db.release t db.committed

/-- What a statement of a transaction sees: its own versions, and what is committed
when the statement begins. -/
def snapshot (db : Db τ κ ρ) (t : τ) : AList fun _ : κ => ρ :=
  match db.txs t with
  | some tx => tx.writes ∪ db.committed
  | none => db.committed

def newest (db : Db τ κ ρ) (t : τ) (k : κ) : Option ρ := (db.snapshot t).lookup k

theorem snapshot_of_unwritten {db : Db τ κ ρ} {t : τ} {now : Int} (h : db.txs t = some ⟨now, ∅⟩) :
    db.snapshot t = db.committed := by
  rw [snapshot, h]
  exact AList.empty_union

theorem newest_of_unwritten {db : Db τ κ ρ} {t : τ} {now : Int} (h : db.txs t = some ⟨now, ∅⟩)
    (k : κ) : db.newest t k = db.committed.lookup k := by
  rw [newest, snapshot_of_unwritten h]

section Success
variable {db : Db τ κ ρ} {t : τ}

theorem start_succeeds (h : db.txs t = none) (now : Int) : ∃ db', db.start t now = some db' :=
  ⟨_, if_pos h⟩

theorem lock_succeeds {k : κ} (h : db.holder k = none ∨ db.holder k = some t) :
    ∃ db', db.lock t k = some db' :=
  ⟨_, dif_pos h⟩

theorem write_succeeds {tx : Tx κ ρ} {k : κ} (h : db.txs t = some tx) (held : db.holder k = some t)
    (row : ρ) : ∃ db', db.write t k row = some db' := by
  unfold write
  split
  · rename_i hnone
    cases hnone.symm.trans h
  · exact ⟨_, dif_pos held⟩

theorem commit_succeeds {tx : Tx κ ρ} (h : db.txs t = some tx) : ∃ db', db.commit t = some db' :=
  ⟨_, by rw [commit, h]; rfl⟩

end Success

/-- What the others do leaves a transaction's writes, its locks, and the rows that
it has locked as they are. -/
structure Undisturbed (t : τ) (db db' : Db τ κ ρ) : Prop where
  tx : db'.txs t = db.txs t
  held : ∀ k, db.holder k = some t → db'.holder k = some t
  row : ∀ k, db.holder k = some t → db'.committed.lookup k = db.committed.lookup k

theorem Undisturbed.refl (t : τ) (db : Db τ κ ρ) : Undisturbed t db db := ⟨rfl, fun _ => id, fun _ _ => rfl⟩

theorem Undisturbed.trans {t : τ} {first second third : Db τ κ ρ}
    (h : first.Undisturbed t second) (h' : second.Undisturbed t third) :
    first.Undisturbed t third where
  tx := h'.tx.trans h.tx
  held k hk := h'.held k (h.held k hk)
  row k hk := (h'.row k (h.held k hk)).trans (h.row k hk)

section Frame
variable {db db' : Db τ κ ρ} {t other : τ}

theorem start_eq_some {now : Int} (h : db.start t now = some db') :
    db.txs t = none ∧ db'.txs t = some ⟨now, ∅⟩ ∧ db'.committed = db.committed := by
  unfold start at h
  split at h <;> cases h
  exact ⟨‹_›, Function.update_self .., rfl⟩

theorem start_undisturbed {now : Int} (h : db.start t now = some db') (hne : other ≠ t) :
    Undisturbed other db db' := by
  unfold start at h
  split at h <;> cases h
  exact ⟨Function.update_of_ne hne .., fun _ => id, fun _ _ => rfl⟩

theorem start_holder {now : Int} (h : db.start t now = some db') : db'.holder = db.holder := by
  unfold start at h
  split at h <;> cases h
  rfl

theorem lock_holder_of_ne {k other : κ} (h : db.lock t k = some db') (hne : other ≠ k) :
    db'.holder other = db.holder other := by
  unfold lock at h
  split at h <;> cases h
  exact Function.update_of_ne hne ..

theorem lock_eq_some {k : κ} (h : db.lock t k = some db') :
    db'.holder k = some t ∧ db'.txs = db.txs ∧ db'.committed = db.committed := by
  unfold lock at h
  split at h <;> cases h
  exact ⟨Function.update_self .., rfl, rfl⟩

theorem lock_undisturbed {k : κ} (h : db.lock t k = some db') (hne : other ≠ t) :
    Undisturbed other db db' := by
  unfold lock at h
  split at h <;> cases h
  rename_i free
  refine ⟨rfl, fun k' hk' => ?_, fun _ _ => rfl⟩
  have hk : k' ≠ k := by
    rintro rfl
    obtain hfree | hmine := free
    · cases hfree.symm.trans hk'
    · exact hne (Option.some.inj (hk'.symm.trans hmine))
  exact (Function.update_of_ne hk ..).trans hk'

theorem write_eq_some {k : κ} {row : ρ} (h : db.write t k row = some db') : ∃ tx,
    db.txs t = some tx ∧ db.holder k = some t ∧
      db'.txs t = some { tx with writes := tx.writes.insert k row } ∧
      db'.holder = db.holder ∧ db'.committed = db.committed := by
  unfold write at h
  split at h
  · cases h
  · rename_i tx hopen
    split at h <;> cases h
    exact ⟨tx, hopen, ‹_›, Function.update_self .., rfl, rfl⟩

theorem write_undisturbed {k : κ} {row : ρ} (h : db.write t k row = some db') (hne : other ≠ t) :
    Undisturbed other db db' := by
  unfold write at h
  split at h
  · cases h
  · split at h <;> cases h
    exact ⟨Function.update_of_ne hne .., fun _ => id, fun _ _ => rfl⟩

@[simp] theorem release_txs (committed : AList fun _ : κ => ρ) :
    (db.release t committed).txs t = none := Function.update_self ..

theorem commit_eq_some (h : db.commit t = some db') : ∃ tx, db.txs t = some tx ∧
    db'.txs t = none ∧ db'.committed = tx.writes ∪ db.committed := by
  obtain ⟨tx, htx, rfl⟩ := Option.map_eq_some_iff.mp h
  exact ⟨tx, htx, release_txs _, rfl⟩

theorem commit_one {now : Int} {k : κ} {row : ρ} (h : db.commit t = some db')
    (htx : db.txs t = some ⟨now, AList.insert k row ∅⟩) :
    db'.txs t = none ∧ db'.committed = AList.insert k row db.committed := by
  obtain ⟨tx, htx', htxs, hcommitted⟩ := commit_eq_some h
  cases htx.symm.trans htx'
  rw [← AList.insert_union, AList.empty_union] at hcommitted
  exact ⟨htxs, hcommitted⟩

theorem commit_undisturbed (h : db.commit t = some db') (hne : other ≠ t) :
    Undisturbed other db db' := by
  obtain ⟨tx, htx, rfl⟩ := Option.map_eq_some_iff.mp h
  refine ⟨Function.update_of_ne hne .., fun _ => released_of_ne hne, fun k hk => ?_⟩
  apply AList.lookup_union_right
  intro hmem
  exact hne (Option.some.inj (hk.symm.trans (db.owned t tx htx k hmem)))

theorem rollback_undisturbed (hne : other ≠ t) : Undisturbed other db (db.rollback t) :=
  ⟨Function.update_of_ne hne .., fun _ => released_of_ne hne, fun _ _ => rfl⟩

end Frame

structure OneWrite (db : Db τ κ ρ) (t : τ) (now : Int) (k : κ) (row : ρ)
    (begun locked written last : Db τ κ ρ) : Prop where
  start : db.start t now = some begun
  lock : begun.lock t k = some locked
  write : locked.write t k row = some written
  commit : written.commit t = some last

theorem oneWrite_succeeds {db : Db τ κ ρ} {t : τ} {k : κ} (closed : db.txs t = none)
    (free : db.holder k = none ∨ db.holder k = some t) (now : Int) (row : ρ) :
    ∃ begun locked written last, OneWrite db t now k row begun locked written last := by
  obtain ⟨begun, start⟩ := start_succeeds closed now
  obtain ⟨_, htx, _⟩ := start_eq_some start
  obtain ⟨locked, lock⟩ := lock_succeeds (start_holder start ▸ free)
  obtain ⟨held, htxs, _⟩ := lock_eq_some lock
  obtain ⟨written, write⟩ := write_succeeds (htxs ▸ htx) held row
  obtain ⟨_, _, _, hwritten, _⟩ := write_eq_some write
  obtain ⟨last, commit⟩ := commit_succeeds hwritten
  exact ⟨begun, locked, written, last, start, lock, write, commit⟩

namespace OneWrite
variable {db begun locked written last : Db τ κ ρ} {t : τ} {now : Int} {k : κ} {row : ρ}
  (h : OneWrite db t now k row begun locked written last)
include h

theorem begun_tx : begun.txs t = some ⟨now, ∅⟩ := (start_eq_some h.start).2.1

theorem begun_committed : begun.committed = db.committed := (start_eq_some h.start).2.2

theorem locked_tx : locked.txs t = some ⟨now, ∅⟩ := (lock_eq_some h.lock).2.1 ▸ h.begun_tx

theorem locked_committed : locked.committed = db.committed :=
  (lock_eq_some h.lock).2.2.trans h.begun_committed

theorem last_eq : last.txs t = none ∧ last.committed = db.committed.insert k row := by
  obtain ⟨tx, htx, _, hwritten, _, hcommitted⟩ := write_eq_some h.write
  cases h.locked_tx.symm.trans htx
  obtain ⟨ended, hlast⟩ := commit_one h.commit hwritten
  exact ⟨ended, by rw [hlast, hcommitted, h.locked_committed]⟩

theorem others {other : τ} (hne : other ≠ t) : last.txs other = db.txs other :=
  (commit_undisturbed h.commit hne).tx.trans ((write_undisturbed h.write hne).tx.trans
    ((lock_undisturbed h.lock hne).tx.trans (start_undisturbed h.start hne).tx))

end OneWrite

/-- One operation of the transaction `t`; it writes only rows that meet `P`. -/
inductive Op (P : ρ → Prop) (t : τ) (db db' : Db τ κ ρ) : Prop where
  | start (now : Int) (h : db.start t now = some db')
  | lock (k : κ) (running : db.txs t ≠ none) (h : db.lock t k = some db')
  | write (k : κ) (row : ρ) (meets : P row) (h : db.write t k row = some db')
  | commit (h : db.commit t = some db')
  | rollback (h : db' = db.rollback t)

def LocksHeld (db : Db τ κ ρ) : Prop := ∀ k t, db.holder k = some t → db.txs t ≠ none

structure All (P : ρ → Prop) (db : Db τ κ ρ) : Prop where
  committed : ∀ k row, db.committed.lookup k = some row → P row
  written : ∀ t tx, db.txs t = some tx → ∀ k row, tx.writes.lookup k = some row → P row

section Op
variable {P : ρ → Prop} {db db' : Db τ κ ρ} {t : τ}

theorem LocksHeld.release (held : db.LocksHeld) (committed : AList fun _ : κ => ρ) :
    (db.release t committed).LocksHeld := by
  intro k other h
  have hne : db.holder k ≠ some t := fun hk => by simp [Db.release, released, hk] at h
  have hother : db.holder k = some other := by simpa [Db.release, released, hne] using h
  have : other ≠ t := by
    rintro rfl
    exact hne hother
  exact (Function.update_of_ne this ..).trans_ne (held k other hother)

theorem Op.locksHeld (op : Op P t db db') (held : db.LocksHeld) : db'.LocksHeld := by
  -- A transaction that has begun goes on, unless it is the one that ends.
  have hkeeps {txs : τ → Option (Tx κ ρ)} {tx : Tx κ ρ} (other : τ) (h : txs other ≠ none) :
      Function.update txs t (some tx) other ≠ none := by
    by_cases hne : other = t
    · simp [hne]
    · rwa [Function.update_of_ne hne]
  cases op with
  | start now h =>
    unfold Db.start at h
    split at h <;> cases h
    exact fun k other hk => hkeeps other (held k other hk)
  | lock k running h =>
    unfold Db.lock at h
    split at h <;> cases h
    intro k' other hk'
    by_cases hk : k' = k
    · subst hk
      cases (Function.update_self ..).symm.trans hk'
      exact running
    · exact held k' other ((Function.update_of_ne hk ..).symm.trans hk')
  | write k row meets h =>
    unfold Db.write at h
    split at h
    · cases h
    · split at h <;> cases h
      exact fun k other hk => hkeeps other (held k other hk)
  | commit h =>
    obtain ⟨tx, _, rfl⟩ := Option.map_eq_some_iff.mp h
    exact held.release _
  | rollback h => exact h ▸ held.release _

theorem Op.undisturbed (op : Op P t db db') {other : τ} (hne : other ≠ t) :
    Undisturbed other db db' := by
  cases op with
  | start now h => exact start_undisturbed h hne
  | lock k running h => exact lock_undisturbed h hne
  | write k row meets h => exact write_undisturbed h hne
  | commit h => exact commit_undisturbed h hne
  | rollback h => exact h ▸ rollback_undisturbed hne

theorem Op.holder_other (op : Op P t db db') {k : κ} {other : τ} (hne : other ≠ t)
    (held : db'.holder k = some other) : db.holder k = some other := by
  have hleft {holder : κ → Option τ} (held : released holder t k = some other) :
      holder k = some other := by
    unfold released at held
    split at held
    · cases held
    · exact held
  cases op with
  | start now h => exact start_holder h ▸ held
  | lock k' running h =>
    by_cases hk : k = k'
    · subst hk
      cases (lock_eq_some h).1.symm.trans held
      exact absurd rfl hne
    · exact (lock_holder_of_ne h hk).symm.trans held
  | write k' row meets h =>
    obtain ⟨_, _, _, _, hholder, _⟩ := write_eq_some h
    exact hholder ▸ held
  | commit h =>
    obtain ⟨tx, _, rfl⟩ := Option.map_eq_some_iff.mp h
    exact hleft held
  | rollback h =>
    subst h
    exact hleft held

theorem ops_undisturbed (ops : Relation.ReflTransGen (Op P t) db db') {other : τ}
    (hne : other ≠ t) : Undisturbed other db db' := by
  induction ops with
  | refl => exact .refl other db
  | tail _ op ih => exact ih.trans (op.undisturbed hne)

theorem ops_holder_other (ops : Relation.ReflTransGen (Op P t) db db') {k : κ} {other : τ}
    (hne : other ≠ t) (held : db'.holder k = some other) : db.holder k = some other := by
  induction ops with
  | refl => exact held
  | tail _ op ih => exact ih (op.holder_other hne held)

theorem All.newest (all : db.All P) {k : κ} {row : ρ} (h : db.newest t k = some row) : P row := by
  unfold Db.newest snapshot at h
  cases htx : db.txs t with
  | none =>
    rw [htx] at h
    exact all.committed k row h
  | some tx =>
    simp only [htx] at h
    obtain hwritten | ⟨_, hcommitted⟩ := AList.mem_lookup_union.mp h
    · exact all.written t tx htx k row hwritten
    · exact all.committed k row hcommitted

theorem All.mono {Q : ρ → Prop} (all : db.All P) (h : ∀ row, P row → Q row) : db.All Q :=
  ⟨fun k row hrow => h row (all.committed k row hrow),
    fun t tx htx k row hrow => h row (all.written t tx htx k row hrow)⟩

theorem All.written_update (all : db.All P) {last : Option (Tx κ ρ)}
    (h : ∀ tx ∈ last, ∀ k row, tx.writes.lookup k = some row → P row) (other : τ) (tx : Tx κ ρ)
    (htx : Function.update db.txs t last other = some tx) (k : κ) (row : ρ)
    (hrow : tx.writes.lookup k = some row) : P row := by
  by_cases hne : other = t
  · subst hne
    rw [Function.update_self] at htx
    exact h tx htx k row hrow
  · exact all.written other tx ((Function.update_of_ne hne ..).symm.trans htx) k row hrow

theorem All.release (all : db.All P) {committed : AList fun _ : κ => ρ}
    (h : ∀ k row, committed.lookup k = some row → P row) : (db.release t committed).All P where
  committed := h
  written := all.written_update fun _ h => nomatch h

theorem Op.all (op : Op P t db db') (all : db.All P) : db'.All P := by
  cases op with
  | start now h =>
    unfold Db.start at h
    split at h <;> cases h
    refine ⟨all.committed, all.written_update ?_⟩
    rintro tx ⟨⟩ k row hrow
    cases hrow
  | lock k running h =>
    obtain ⟨_, htxs, hcommitted⟩ := lock_eq_some h
    exact ⟨hcommitted ▸ all.committed, htxs ▸ all.written⟩
  | write k row meets h =>
    unfold Db.write at h
    split at h
    · cases h
    · rename_i tx hopen
      split at h <;> cases h
      refine ⟨all.committed, all.written_update ?_⟩
      rintro tx' ⟨⟩ k' row' hrow
      by_cases hk : k' = k
      · subst hk
        cases (AList.lookup_insert _).symm.trans hrow
        exact meets
      · exact all.written t tx hopen k' row' ((AList.lookup_insert_ne hk).symm.trans hrow)
  | commit h =>
    obtain ⟨tx, htx, rfl⟩ := Option.map_eq_some_iff.mp h
    refine all.release fun k row hrow => ?_
    obtain hwritten | ⟨_, hcommitted⟩ := AList.mem_lookup_union.mp hrow
    · exact all.written t tx htx k row hwritten
    · exact all.committed k row hcommitted
  | rollback h => exact h ▸ all.release all.committed

end Op
end Db
end Pals.Library
