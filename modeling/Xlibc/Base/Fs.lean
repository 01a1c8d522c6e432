import Mathlib.Logic.Function.Basic
import Xlibc.Base.Bytes

/-!
# Xlibc.Base.Fs

Files and their names.

* `Fs`                     : names of files, and what the files hold.
* `unlink`, `rename`       : the names change, the files stay.
* `fopen`                  : the file of a name, for appending; a new one if there is none.
* `append`                 : writing at the end of an open file.
-/

namespace Xlibc

/-- A file system. Files are numbers below `next`; `opens` says which names can be opened. -/
structure Fs where
  dir : List Byte → Option Nat
  content : Nat → List Byte
  next : Nat
  opens : List Byte → Bool
  fresh : ∀ p i, dir p = some i → i < next

namespace Fs

/-- What a file holds, if there is one of this name. -/
def read (fs : Fs) (p : List Byte) : Option (List Byte) := (fs.dir p).map fs.content

def unlink (fs : Fs) (p : List Byte) : Fs where
  dir := Function.update fs.dir p none
  content := fs.content
  next := fs.next
  opens := fs.opens
  fresh := by
    intro q i hq
    by_cases h : q = p
    · rw [h, Function.update_self] at hq
      cases hq
    · rw [Function.update_of_ne h] at hq
      exact fs.fresh q i hq

/-- The file called `p` is called `q`, and one that was called `q` has lost its name. -/
def renamed (fs : Fs) (p q : List Byte) (i : Nat) (hp : fs.dir p = some i) : Fs where
  dir := Function.update (Function.update fs.dir p none) q (some i)
  content := fs.content
  next := fs.next
  opens := fs.opens
  fresh := by
    intro r j hr
    by_cases hq : r = q
    · rw [hq, Function.update_self] at hr
      cases hr
      exact fs.fresh p i hp
    · rw [Function.update_of_ne hq] at hr
      by_cases h : r = p
      · rw [h, Function.update_self] at hr
        cases hr
      · rw [Function.update_of_ne h] at hr
        exact fs.fresh r j hr

def rename (fs : Fs) (p q : List Byte) : Fs :=
  match h : fs.dir p with
  | some i => fs.renamed p q i h
  | none => fs

/-- A new file without content. -/
def create (fs : Fs) (p : List Byte) : Fs where
  dir := Function.update fs.dir p (some fs.next)
  content := Function.update fs.content fs.next []
  next := fs.next + 1
  opens := fs.opens
  fresh := by
    intro q i hq
    by_cases h : q = p
    · rw [h, Function.update_self] at hq
      cases hq
      exact Nat.lt_succ_self _
    · rw [Function.update_of_ne h] at hq
      exact Nat.lt_succ_of_lt (fs.fresh q i hq)

/-- `fopen(p, "a+")` -/
def fopen (fs : Fs) (p : List Byte) : Option (Fs × Nat) :=
  if fs.opens p = false then none
  else
    match fs.dir p with
    | some i => some (fs, i)
    | none => some (fs.create p, fs.next)

def append (fs : Fs) (i : Nat) (bs : List Byte) : Fs :=
  { fs with content := Function.update fs.content i (fs.content i ++ bs) }

variable {fs : Fs} {p q : List Byte} {i j : Nat}

theorem unlink_dir_ne (h : q ≠ p) : (fs.unlink p).dir q = fs.dir q := Function.update_of_ne h _ _

theorem renamed_dir_new (hp : fs.dir p = some i) (q : List Byte) : (fs.renamed p q i hp).dir q = some i :=
  Function.update_self ..

theorem renamed_dir_old (hp : fs.dir p = some i) (h : p ≠ q) : (fs.renamed p q i hp).dir p = none :=
  (Function.update_of_ne h _ _).trans (Function.update_self ..)

theorem rename_of_some (hp : fs.dir p = some i) (q : List Byte) : fs.rename p q = fs.renamed p q i hp := by
  unfold rename
  split
  · next j hj =>
    rw [hj] at hp
    cases hp
    rfl
  · next hnone =>
    rw [hnone] at hp
    cases hp

@[simp] theorem rename_opens (fs : Fs) (p q : List Byte) : (fs.rename p q).opens = fs.opens := by
  unfold rename
  split <;> rfl

/-- An opened file has the name it was opened with. -/
theorem fopen_dir {fs' : Fs} (h : fs.fopen p = some (fs', i)) : fs'.dir p = some i := by
  unfold fopen at h
  split at h
  · cases h
  · split at h
    · next hp =>
      cases h
      exact hp
    · cases h
      exact Function.update_self ..

theorem fopen_opens {fs' : Fs} (h : fs.fopen p = some (fs', i)) : fs'.opens = fs.opens := by
  unfold fopen at h
  split at h
  · cases h
  · split at h
    · cases h
      rfl
    · cases h
      rfl

theorem fopen_some (hopen : fs.opens p = true) : ∃ fs' i, fs.fopen p = some (fs', i) := by
  unfold fopen
  rw [if_neg (by rw [hopen]; decide)]
  split
  · exact ⟨_, _, rfl⟩
  · exact ⟨_, _, rfl⟩

/-- Without a file of its name a new one is made. -/
theorem fopen_create (hopen : fs.opens p = true) (hp : fs.dir p = none) :
    fs.fopen p = some (fs.create p, fs.next) := by
  unfold fopen
  rw [if_neg (by rw [hopen]; decide), hp]

theorem create_dir_self (fs : Fs) (p : List Byte) : (fs.create p).dir p = some fs.next :=
  Function.update_self ..

theorem create_dir_ne (h : q ≠ p) : (fs.create p).dir q = fs.dir q := Function.update_of_ne h _ _

theorem create_content_new (fs : Fs) (p : List Byte) : (fs.create p).content fs.next = [] :=
  Function.update_self ..

/-- A file that had a name is not the new one. -/
theorem create_content_old (hq : fs.dir q = some j) (p : List Byte) :
    (fs.create p).content j = fs.content j := Function.update_of_ne (Nat.ne_of_lt (fs.fresh q j hq)) _ _

theorem append_content_self (fs : Fs) (i : Nat) (bs : List Byte) :
    (fs.append i bs).content i = fs.content i ++ bs := Function.update_self ..

theorem append_content_ne (h : j ≠ i) (bs : List Byte) : (fs.append i bs).content j = fs.content j :=
  Function.update_of_ne h _ _

end Fs
end Xlibc
