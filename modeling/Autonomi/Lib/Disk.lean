/-
  Programs that work on a directory: any operation may fail, halfway too, and any may be the last
  one.
-/
import Autonomi.Lib.Files
import Autonomi.Lib.Post

namespace Lib

/-- How an operation ends; `part` says how much of it has been done. -/
inductive OpEnd where
  | done
  | failed (e : String) (part : ℕ)
  | died (part : ℕ)
  deriving DecidableEq

/-- Why a program stops. -/
inductive Stop (ε : Type) where
  | error (e : ε)
  | died
  deriving DecidableEq

/-- The directory, and how many operations there have been. -/
structure Disk (N : Type) where
  files : Files N
  ops : ℕ

abbrev DiskAct (N ε α : Type) := Act (Disk N) (Stop ε) α

namespace Disk

variable {N ε α : Type}

section Operations

variable (ends : ℕ → OpEnd) (io : String → ε)

/-- One operation: `whole` is what it does, `failed k` and `died k` what it has done when it fails
    or the program dies. -/
def op (whole : Files N → Files N) (failed died : ℕ → Files N → Files N) : DiskAct N ε Unit := do
  let d ← get
  match ends d.ops with
  | .done => set (Disk.mk (whole d.files) (d.ops + 1))
  | .failed e k => do
    set (Disk.mk (failed k d.files) (d.ops + 1))
    throw (.error (io e))
  | .died k => do
    set (Disk.mk (died k d.files) (d.ops + 1))
    throw .died

/-- Nothing of it is done if it fails; if the program dies, all or nothing. -/
def atomic (whole : Files N → Files N) : DiskAct N ε Unit :=
  op ends io whole (fun _ fs => fs) fun k fs => if k = 0 then fs else whole fs

/-- `File::create`. -/
def create [DecidableEq N] (n : N) : DiskAct N ε ℕ := do
  let d ← get
  atomic ends io fun fs => (fs.create n).1
  pure (d.files.create n).2

/-- `write_all` at the end of what has been written. -/
def writeAll (i off : ℕ) (b : List UInt8) : DiskAct N ε Unit :=
  op ends io (fun fs => fs.write i off b) (fun k fs => fs.write i off (b.take k))
    fun k fs => fs.write i off (b.take k)

def flush : DiskAct N ε Unit := atomic ends io id

def rename [DecidableEq N] (n n' : N) : DiskAct N ε Unit := atomic ends io fun fs => fs.rename n n'

def remove [DecidableEq N] (n : N) : DiskAct N ε Unit := atomic ends io fun fs => fs.remove n

/-- An error is looked at; death is not. -/
def attempt (x : DiskAct N ε α) : DiskAct N ε (Except ε α) := ExceptT.mk fun d =>
  match x d with
  | none => none
  | some (.ok a, d) => some (.ok (.ok a), d)
  | some (.error (.error e), d) => some (.ok (.error e), d)
  | some (.error .died, d) => some (.error .died, d)

end Operations

/-! ## Rules -/

variable {ends : ℕ → OpEnd} {io : String → ε} {whole : Files N → Files N}
  {failed died : ℕ → Files N → Files N} {d d' : Disk N} {R : Stop ε → Disk N → Prop}

open Act

/-- All operations from the one disk to the other have been done. -/
def Done (ends : ℕ → OpEnd) (d d' : Disk N) : Prop :=
  d.ops ≤ d'.ops ∧ ∀ k, d.ops ≤ k → k < d'.ops → ends k = .done

theorem Done.refl (d : Disk N) : Done ends d d := ⟨le_rfl, fun k hk hk' => by omega⟩

theorem Done.trans {d'' : Disk N} (h : Done ends d d') (h' : Done ends d' d'') :
    Done ends d d'' := by
  refine ⟨h.1.trans h'.1, fun k hk hk' => ?_⟩
  rcases Nat.lt_or_ge k d'.ops with hlt | hge
  · exact h.2 k hk hlt
  · exact h'.2 k hge hk'

theorem Done.succ {fs : Files N} (h : ends d.ops = .done) : Done ends d ⟨fs, d.ops + 1⟩ := by
  refine ⟨Nat.le_succ _, fun k hk hk' => ?_⟩
  obtain rfl : k = d.ops := Nat.le_antisymm (Nat.le_of_lt_succ hk') hk
  exact h

theorem post_op {Q : Unit → Disk N → Prop}
    (hdone : ends d.ops = .done → Q () ⟨whole d.files, d.ops + 1⟩)
    (hfailed : ∀ e k, ends d.ops = .failed e k → R (.error (io e)) ⟨failed k d.files, d.ops + 1⟩)
    (hdied : ∀ k, R .died ⟨died k d.files, d.ops + 1⟩) :
    Post (op ends io whole failed died) d Q R := by
  refine post_get ?_
  cases hend : ends d.ops with
  | done => exact post_set (hdone hend)
  | failed e k => exact .inr ⟨_, _, rfl, hfailed e k hend⟩
  | died k => exact .inr ⟨_, _, rfl, hdied k⟩

theorem post_atomic {Q : Unit → Disk N → Prop}
    (hdone : ends d.ops = .done → Q () ⟨whole d.files, d.ops + 1⟩)
    (hfailed : ∀ e k, ends d.ops = .failed e k → R (.error (io e)) ⟨d.files, d.ops + 1⟩)
    (hdied : R .died ⟨d.files, d.ops + 1⟩ ∧ R .died ⟨whole d.files, d.ops + 1⟩) :
    Post (atomic ends io whole) d Q R := by
  refine post_op hdone hfailed fun k => ?_
  split_ifs
  · exact hdied.1
  · exact hdied.2

theorem post_create [DecidableEq N] {n : N} {Q : ℕ → Disk N → Prop}
    (hdone : ends d.ops = .done → Q (d.files.create n).2 ⟨(d.files.create n).1, d.ops + 1⟩)
    (hfailed : ∀ e k, ends d.ops = .failed e k → R (.error (io e)) ⟨d.files, d.ops + 1⟩)
    (hdied : R .died ⟨d.files, d.ops + 1⟩ ∧ R .died ⟨(d.files.create n).1, d.ops + 1⟩) :
    Post (create ends io n) d Q R :=
  post_get (post_bind (post_atomic (fun h => post_pure (hdone h)) hfailed hdied))

theorem post_attempt {x : DiskAct N ε α} {Q : Except ε α → Disk N → Prop}
    (h : Post x d (fun a d' => Q (.ok a) d') fun stop d' =>
      (∀ e, stop = .error e → Q (.error e) d') ∧ (stop = .died → R .died d')) :
    Post (attempt x) d Q R := by
  rcases h with ⟨a, d', hx, ha⟩ | ⟨e | _, d', hx, herror, hdied⟩
  · exact .inl ⟨_, d', by simp [attempt, ExceptT.mk, hx], ha⟩
  · exact .inl ⟨_, d', by simp [attempt, ExceptT.mk, hx], herror e rfl⟩
  · exact .inr ⟨_, d', by simp [attempt, ExceptT.mk, hx], hdied rfl⟩

theorem op_done (h : ends d.ops = .done) :
    op ends io whole failed died d = some (.ok (), ⟨whole d.files, d.ops + 1⟩) := by
  simp [op, h]

theorem atomic_done (h : ends d.ops = .done) :
    atomic ends io whole d = some (.ok (), ⟨whole d.files, d.ops + 1⟩) := op_done h

theorem attempt_ok {x : DiskAct N ε α} {a : α} (h : x d = some (.ok a, d')) :
    attempt x d = some (.ok (.ok a), d') := by
  simp [attempt, ExceptT.mk, h]

end Disk

end Lib
