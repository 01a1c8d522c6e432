import Xlibc.Base.Bytes

/-!
# Xlibc.Base.Stdio

Reading an open file with `fread`. What the calls come upon is a schedule, one event for each call.

* `fread_parts` : what is read is in front of what is left.
* `fread_nothing` : no bytes without an error, that is the end of the file.
* `fread_feof`, `fread_ferror` : what the two flags say.
-/

namespace Xlibc

/-- An open file: what has not been read, and the two flags. -/
structure FILE where
  left : List Byte
  feof : Bool
  ferror : Bool

/-- What a call of `fread` comes upon: `n + 1` bytes at most, where `feof` says if the end is noticed when it is
reached; or `n` bytes at most and an error. -/
inductive Fread where
  | upTo (n : Nat) (feof : Bool)
  | error (n : Nat)

/-- `fread(.., 1, size, stream)`; the flags stay once they are set. -/
def fread (file : FILE) (size : Nat) : Fread → List Byte × FILE
  | .upTo n feof =>
    let got := file.left.take (min (n + 1) size)
    let left := file.left.drop (min (n + 1) size)
    (got, { file with left, feof := file.feof || (left.isEmpty && (feof || got.length < size)) })
  | .error n => (file.left.take (min n size), { file with left := file.left.drop (min n size), ferror := true })

theorem fread_parts (file : FILE) (size : Nat) (event : Fread) :
    file.left = (fread file size event).1 ++ (fread file size event).2.left ∧
      (fread file size event).1.length ≤ size := by
  cases event with
  | upTo n feof => exact ⟨(List.take_append_drop _ _).symm, by simp only [fread, List.length_take]; omega⟩
  | error n => exact ⟨(List.take_append_drop _ _).symm, by simp only [fread, List.length_take]; omega⟩

theorem fread_feof {file : FILE} (size : Nat) (event : Fread) (hfile : file.feof = true → file.left = [])
    (h : (fread file size event).2.feof = true) : (fread file size event).2.left = [] := by
  cases event with
  | upTo n feof =>
    simp only [fread, Bool.or_eq_true, Bool.and_eq_true, List.isEmpty_iff] at h ⊢
    rcases h with h | h
    · rw [hfile h, List.drop_nil]
    · exact h.1
  | error n => rw [fread, hfile h, List.drop_nil]

theorem fread_ferror (file : FILE) (size : Nat) (event : Fread) (h : (fread file size event).2.ferror = true) :
    file.ferror = true ∨ ∃ n, event = .error n := by
  cases event with
  | upTo n feof => exact .inl h
  | error n => exact .inr ⟨n, rfl⟩

/-- Nothing has been read: an error, or the end. -/
theorem fread_nothing (file : FILE) {size : Nat} (event : Fread) (hsize : 0 < size)
    (h : (fread file size event).1.length = 0) (hok : (fread file size event).2.ferror = false) :
    (fread file size event).2.left = [] := by
  cases event with
  | upTo n feof =>
    simp only [fread, List.length_take] at h ⊢
    exact List.drop_eq_nil_of_le (by omega)
  | error n => cases hok

end Xlibc
