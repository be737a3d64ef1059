import Mathlib.Algebra.BigOperators.Group.List.Basic
import Mathlib.Algebra.GroupWithZero.Nat
import QrngDevice.Lib.Runs

/-!
# A window onto a stream

A sender offers the elements of a stream through a window, and the receiver takes those at the first
`k` places of it, for any `k`. The sender then fills these places with the next elements. Elements that
were not taken keep their places, so that later ones overtake them.

Elements are named by their positions in the stream. `Window.order` is the order in which they leave the
window, up to and with those still in it. It has every element that was moved into the window, once
(`Window.order_perm`), and if the receiver always takes all, it is the order of the stream
(`Window.order_replicate`).
-/

open Runs

/-- A window onto a stream. -/
structure Window where
  /-- The position of the next element of the stream to be moved into the window. -/
  next : ℕ
  /-- The positions of the elements at the places of the window. -/
  places : List ℕ

namespace Window

/-- A window without places. -/
def empty : Window := ⟨0, []⟩

/-- The first `k` places are filled with the next elements. -/
def renew (w : Window) (k : ℕ) : Window :=
  ⟨w.next + k, List.range' w.next k ++ w.places.drop k⟩

/-- The window with `width` places onto the start of the stream. -/
def full (width : ℕ) : Window := empty.renew width

/-- The elements taken, in order, when the receiver takes `ks` one after the other. -/
def served (w : Window) : List ℕ → List ℕ
  | [] => []
  | k :: ks => w.places.take k ++ (w.renew k).served ks

/-- The elements taken, and those in the window then. -/
def order (w : Window) (ks : List ℕ) : List ℕ := w.served ks ++ (run renew w ks).places

@[simp] theorem next_renew (w : Window) (k : ℕ) : (w.renew k).next = w.next + k := rfl

@[simp] theorem places_renew (w : Window) (k : ℕ) :
    (w.renew k).places = List.range' w.next k ++ w.places.drop k := rfl

/-- The places of a full window are those of the first elements. -/
@[simp] theorem places_full (width : ℕ) : (full width).places = List.range width := by
  simp [full, empty, List.range_eq_range']

/-- The next element after those of a full window. -/
@[simp] theorem next_full (width : ℕ) : (full width).next = width := Nat.zero_add width

/-- One more taking. -/
theorem served_concat (w : Window) (ks : List ℕ) (k : ℕ) :
    w.served (ks ++ [k]) = w.served ks ++ (run renew w ks).places.take k := by
  induction ks generalizing w with
  | nil => simp [served]
  | cons k' ks ih => rw [List.cons_append, served, ih, served, run_cons, List.append_assoc]

/-- For each element taken, one is moved into the window. -/
theorem next_run (w : Window) (ks : List ℕ) : (run renew w ks).next = w.next + ks.sum := by
  induction ks generalizing w with
  | nil => rfl
  | cons k ks ih => rw [run_cons, ih, next_renew, List.sum_cons, Nat.add_assoc]

/-- No element is lost, and none comes twice: up to their order, those taken and those in the window are
those that were in the window and those moved into it. -/
theorem order_perm (w : Window) (ks : List ℕ) :
    (w.order ks).Perm (w.places ++ List.range' w.next ks.sum) := by
  induction ks generalizing w with
  | nil => simp [order, served]
  | cons k ks ih =>
    have hrange : List.range' w.next (k :: ks).sum =
        List.range' w.next k ++ List.range' (w.next + k) ks.sum := by
      rw [List.sum_cons, List.range'_append_1]
    calc w.order (k :: ks)
        = w.places.take k ++ (w.renew k).order ks := by
          rw [order, served, run_cons, List.append_assoc, order]
      _ |>.Perm (w.places.take k ++ ((w.renew k).places ++ List.range' (w.next + k) ks.sum)) :=
          (ih (w.renew k)).append_left _
      _ |>.Perm (w.places.take k ++ (w.places.drop k ++
            (List.range' w.next k ++ List.range' (w.next + k) ks.sum))) := by
          rw [places_renew, List.append_assoc]
          exact List.perm_append_comm_assoc _ _ _ |>.append_left _
      _ = w.places ++ List.range' w.next (k :: ks).sum := by
          rw [← List.append_assoc, List.take_append_drop, hrange]

/-- A full window loses no element of the start of the stream. -/
theorem order_full_perm (width : ℕ) (ks : List ℕ) :
    ((full width).order ks).Perm (List.range (width + ks.sum)) := by
  refine (order_perm _ _).trans (List.Perm.of_eq ?_)
  rw [places_full, next_full, List.range_eq_range', List.range_eq_range', ← List.range'_append_1,
    Nat.zero_add]

/-- A window keeps its width, as long as the receiver takes no more than there is. -/
theorem length_places_run {w : Window} {ks : List ℕ} (hks : ∀ k ∈ ks, k ≤ w.places.length) :
    (run renew w ks).places.length = w.places.length := by
  induction ks generalizing w with
  | nil => rfl
  | cons k ks ih =>
    obtain ⟨hk, hks⟩ := List.forall_mem_cons.mp hks
    have hlen : (w.renew k).places.length = w.places.length := by
      rw [places_renew, List.length_append, List.length_range', List.length_drop]
      omega
    rw [run_cons, ih (by rwa [hlen]), hlen]

/-- Then it gets all that it takes. -/
theorem length_served {width : ℕ} {ks : List ℕ} (hks : ∀ k ∈ ks, k ≤ width) :
    ((full width).served ks).length = ks.sum := by
  have hfull : (full width).places.length = width := by rw [places_full, List.length_range]
  have hperm := (order_full_perm width ks).length_eq
  rw [order, List.length_append, length_places_run (by rwa [hfull]), hfull, List.length_range] at hperm
  omega

/-- If all places are taken each time, the window moves on by its width. -/
theorem run_replicate (width n : ℕ) :
    (full width).served (List.replicate n width) = List.range (n * width) ∧
      run renew (full width) (List.replicate n width) =
        ⟨(n + 1) * width, List.range' (n * width) width⟩ := by
  induction n with
  | zero => simp [served, full, renew, empty]
  | succ n ih =>
    obtain ⟨hserved, hwindow⟩ := ih
    rw [List.replicate_succ', served_concat, run_append, hserved, hwindow]
    refine ⟨?_, ?_⟩
    · rw [List.take_of_length_le (by simp), Nat.succ_mul, List.range_eq_range',
        List.range_eq_range', ← List.range'_append_1, Nat.zero_add]
    · simp [renew, List.drop_eq_nil_of_le, Nat.succ_mul]

/-- So the elements leave it in the order of the stream. -/
theorem order_replicate (width n : ℕ) :
    (full width).order (List.replicate n width) = List.range ((n + 1) * width) := by
  obtain ⟨hserved, hwindow⟩ := run_replicate width n
  rw [order, hserved, hwindow, Nat.succ_mul, List.range_eq_range', List.range_eq_range',
    ← List.range'_append_1, Nat.zero_add]

end Window
