/-
  A directory of files that are opened, written in parts, renamed and removed. An open file is an
  index of the table of contents, which outlives its name.
-/
import Mathlib

namespace Lib

variable {N : Type*}

structure Files (N : Type*) where
  ino : N → Option ℕ
  data : ℕ → List UInt8
  next : ℕ
  bound : ∀ n i, ino n = some i → i < next
  /-- There are no hard links. -/
  inj : ∀ n n' i, ino n = some i → ino n' = some i → n = n'

/-- Writing past the end fills the gap with zeros. -/
def writeAt (c : List UInt8) (off : ℕ) (d : List UInt8) : List UInt8 :=
  (c ++ List.replicate (off - c.length) 0).take off ++ d ++ c.drop (off + d.length)

/-- The next part of a copy, written behind the parts before it. -/
theorem writeAt_take (b : List UInt8) {off : ℕ} (hoff : off ≤ b.length) (n : ℕ) :
    writeAt (b.take off) off ((b.drop off).take n) =
      b.take (off + ((b.drop off).take n).length) := by
  have hlen : (b.take off).length = off := by simp [hoff]
  have hdrop : (b.take off).drop (off + ((b.drop off).take n).length) = [] :=
    List.drop_eq_nil_of_le (by omega)
  rw [writeAt, hdrop, hlen, Nat.sub_self, List.replicate_zero, List.append_nil, List.append_nil,
    List.take_take, Nat.min_self, List.take_add, List.length_take, ← List.take_eq_take_min]

/-- Writing at the end. -/
theorem writeAt_length (c d : List UInt8) : writeAt c c.length d = c ++ d := by
  simp [writeAt]

namespace Files

variable (fs : Files N)

def read (n : N) : Option (List UInt8) := (fs.ino n).map fs.data

def setData (i : ℕ) (content : List UInt8) : Files N :=
  { fs with data := Function.update fs.data i content }

def write (i off : ℕ) (d : List UInt8) : Files N := fs.setData i (writeAt (fs.data i) off d)

section Write

variable {fs} {i j off : ℕ} {d : List UInt8}

@[simp] theorem ino_write : (fs.write i off d).ino = fs.ino := rfl

@[simp] theorem next_write : (fs.write i off d).next = fs.next := rfl

theorem data_write_of_ne (h : i ≠ j) : (fs.write j off d).data i = fs.data i :=
  Function.update_of_ne h _ _

theorem data_write_self : (fs.write i off d).data i = writeAt (fs.data i) off d :=
  Function.update_self _ _ _

theorem read_eq_of {n : N} (h : fs.ino n = some i) : fs.read n = some (fs.data i) := by
  rw [read, h]; rfl

/-- Writing to one file leaves what the others contain. -/
theorem read_write_of_ne {n m : N} (h : fs.ino n = some i) (hne : m ≠ n) :
    (fs.write i off d).read m = fs.read m := by
  rw [read, read, ino_write]
  refine Option.map_congr fun j hj => data_write_of_ne ?_
  rintro rfl
  exact hne (fs.inj m n j hj h)

end Write

variable [DecidableEq N]

/-- Only the file `n`. -/
def single (n : N) (content : List UInt8) : Files N where
  ino m := if m = n then some 0 else none
  data _ := content
  next := 1
  bound m i h := by split_ifs at h; simp_all
  inj m m' i h h' := by split_ifs at h h'; simp_all

/-- A new file `n`, in the place of the one that has the name. -/
def place (n : N) (content : List UInt8) : Files N where
  ino := Function.update fs.ino n (some fs.next)
  data := Function.update fs.data fs.next content
  next := fs.next + 1
  bound m i h := by
    by_cases hmn : m = n
    · subst hmn
      simp at h
      omega
    · rw [Function.update_of_ne hmn] at h
      exact (fs.bound m i h).trans (Nat.lt_succ_self _)
  inj m m' i h h' := by
    have hnew : ∀ l, Function.update fs.ino n (some fs.next) l = some i →
        (l = n ∧ i = fs.next) ∨ l ≠ n ∧ fs.ino l = some i ∧ i < fs.next := by
      intro l hl
      by_cases hln : l = n
      · subst hln
        exact Or.inl ⟨rfl, by simpa using hl.symm⟩
      · rw [Function.update_of_ne hln] at hl
        exact Or.inr ⟨hln, hl, fs.bound l i hl⟩
    rcases hnew m h with ⟨hm, hi⟩ | ⟨-, hm, hi⟩ <;>
      rcases hnew m' h' with ⟨hm', hi'⟩ | ⟨-, hm', hi'⟩
    · rw [hm, hm']
    · omega
    · omega
    · exact fs.inj m m' i hm hm'

/-- Opens `n` for writing: a file that has the name is truncated. -/
def create (n : N) : Files N × ℕ :=
  match fs.ino n with
  | some i => (fs.setData i [], i)
  | none => (fs.place n [], fs.next)

def remove (n : N) : Files N where
  ino := Function.update fs.ino n none
  data := fs.data
  next := fs.next
  bound m i h := by
    by_cases hmn : m = n
    · subst hmn; simp at h
    · rw [Function.update_of_ne hmn] at h
      exact fs.bound m i h
  inj m m' i h h' := by
    by_cases hmn : m = n
    · subst hmn; simp at h
    by_cases hmn' : m' = n
    · subst hmn'; simp at h'
    rw [Function.update_of_ne hmn] at h
    rw [Function.update_of_ne hmn'] at h'
    exact fs.inj m m' i h h'

/-- `n` gets the name `n'`, and the file that had it is unlinked. -/
def rename (n n' : N) : Files N where
  ino m := if m = n' then fs.ino n else if m = n then none else fs.ino m
  data := fs.data
  next := fs.next
  bound m i h := by
    split_ifs at h
    · exact fs.bound n i h
    · exact fs.bound m i h
  inj m m' i h h' := by
    split_ifs at h h' with h1 h2 h3 h4
    · rw [h1, h2]
    · exact absurd (fs.inj n m' i h h').symm h3
    · exact absurd (fs.inj m n i h h') (by assumption)
    · exact fs.inj m m' i h h'

/-! ## What the operations do -/

variable {fs} {n m : N} {i : ℕ} {content : List UInt8}

@[simp] theorem ino_single : (single n content).ino m = if m = n then some 0 else none := rfl

@[simp] theorem data_single : (single n content).data i = content := rfl

@[simp] theorem data_remove : (fs.remove n).data = fs.data := rfl

@[simp] theorem next_remove : (fs.remove n).next = fs.next := rfl

@[simp] theorem data_rename {n' : N} : (fs.rename n n').data = fs.data := rfl

@[simp] theorem next_rename {n' : N} : (fs.rename n n').next = fs.next := rfl

theorem ino_remove_of_ne (h : m ≠ n) : (fs.remove n).ino m = fs.ino m :=
  Function.update_of_ne h _ _

@[simp] theorem ino_remove_self : (fs.remove n).ino n = none :=
  Function.update_self _ _ _

theorem ino_place_of_ne (h : m ≠ n) : (fs.place n content).ino m = fs.ino m :=
  Function.update_of_ne h _ _

@[simp] theorem ino_place_self : (fs.place n content).ino n = some fs.next :=
  Function.update_self _ _ _

theorem data_place_of_lt (h : i < fs.next) : (fs.place n content).data i = fs.data i :=
  Function.update_of_ne h.ne _ _

@[simp] theorem data_place_next : (fs.place n content).data fs.next = content :=
  Function.update_self _ _ _

theorem ino_create_of_ne (h : m ≠ n) : (fs.create n).1.ino m = fs.ino m := by
  unfold create
  split
  · rfl
  · exact ino_place_of_ne h

theorem ino_create_self : (fs.create n).1.ino n = some (fs.create n).2 := by
  unfold create
  split
  · assumption
  · exact ino_place_self

theorem ino_create_of_some (h : fs.ino n = some i) : (fs.create n).1.ino n = some i := by
  simp [create, h, setData]

/-- A file is opened under its own name, or is new. -/
theorem create_ne (h : fs.ino n ≠ some i) (hi : i < fs.next) : (fs.create n).1.ino n ≠ some i := by
  rw [ino_create_self]
  unfold create
  split
  · rename_i j hj
    rintro ⟨⟩
    exact h hj
  · rintro ⟨⟩
    exact hi.false

theorem data_create_self : (fs.create n).1.data (fs.create n).2 = [] := by
  unfold create
  split
  · exact Function.update_self _ _ _
  · exact data_place_next

/-- Opening one file leaves what the others contain. -/
theorem data_create_of_ne (h : fs.ino n ≠ some i) (hi : i < fs.next) :
    (fs.create n).1.data i = fs.data i := by
  unfold create
  split
  · rename_i j hj
    exact Function.update_of_ne (by rintro rfl; exact h hj) _ _
  · exact data_place_of_lt hi

theorem next_le_create : fs.next ≤ (fs.create n).1.next := by
  unfold create
  split
  · exact le_rfl
  · exact Nat.le_succ _

/-! ## What is read -/

theorem read_create_of_ne (hne : m ≠ n) : (fs.create n).1.read m = fs.read m := by
  rw [read, read, ino_create_of_ne hne]
  refine Option.map_congr fun j hj => data_create_of_ne (fun hn => ?_) (fs.bound m j hj)
  exact hne (fs.inj m n j hj hn)

theorem read_remove_of_ne (hne : m ≠ n) : (fs.remove n).read m = fs.read m := by
  rw [read, read, ino_remove_of_ne hne, data_remove]

theorem ino_rename_self {n' : N} (hne : n ≠ n') : (fs.rename n n').ino n = none := by
  simp [rename, hne]

theorem read_rename {n' : N} : (fs.rename n n').read n' = fs.read n := by
  simp [read, rename]

theorem read_rename_of_ne {n' : N} (h : m ≠ n) (h' : m ≠ n') :
    (fs.rename n n').read m = fs.read m := by
  simp [read, rename, h, h']

end Files

end Lib
