import Mathlib

/-!
# Tilings of a range of naturals by closed intervals

A list tiles a range when the multiset of its cells is the range: the intervals are disjoint and
nothing is left out.
-/

namespace Sniper.IntervalTilings
open Function List

/-- A closed interval `[first, last]`; it is empty when `last < first`. -/
structure Interval where
  first : ℕ
  last : ℕ
  deriving DecidableEq,Repr

namespace Interval

section

variable (b : Interval)

/-- Number of cells between the two end points, for a nonempty interval. -/
def size : ℕ := b.last - b.first+1

/-- `b` spans exactly `n` cells. -/
def Spans (n : ℕ) : Prop := b.last+1=b.first+n

instance (n : ℕ) : Decidable (b.Spans n) := inferInstanceAs (Decidable (b.last+1=b.first+n))

def Contains (p : ℕ) : Prop := b.first≤p ∧ p≤b.last

instance (p : ℕ) : Decidable (b.Contains p) := inferInstanceAs (Decidable (b.first≤p ∧ p≤b.last))

end

/-- No cell lies in both intervals. -/
def Apart (b c : Interval) : Prop := ∀p,b.Contains p → ¬ c.Contains p

def cells (b : Interval) : Multiset ℕ := Multiset.Ico b.first (b.last+1)

@[simp] theorem mem_cells {b : Interval} {p : ℕ} : p∈b.cells ↔ b.Contains p := by
  simp [cells,Contains]

@[simp] theorem cells_singleton (p : ℕ) : cells ⟨p,p⟩={p} := congrArg Finset.val (Nat.Ico_succ_singleton p)

theorem Spans.size_eq {b : Interval} {n : ℕ} (h : b.Spans n) (hn : 0<n) : b.size=n := by
  unfold Spans at h
  unfold size
  omega

theorem Spans.cells_eq {b : Interval} {n : ℕ} (h : b.Spans n) : b.cells=Multiset.Ico b.first (b.first+n) := by
  rw [cells,h]

theorem spans_mk {p n : ℕ} (hn : 0<n) : Spans ⟨p,p+n - 1⟩ n := by
  unfold Spans
  dsimp only
  omega

theorem cells_cut {a m b : ℕ} (ham : a ≤ m+1) (hmb : m≤b) : cells ⟨a,m⟩+cells ⟨m+1,b⟩=cells ⟨a,b⟩ := by
  simp only [cells]
  exact Multiset.Ico_add_Ico_eq_Ico ham (by omega)

end Interval

def Interval.mid (b : Interval) : ℕ := b.first+(b.last - b.first) / 2

theorem Interval.Spans.halves {b : Interval} {n : ℕ} (h : b.Spans (2*n)) (hn : 0<n) :
    Interval.Spans ⟨b.first,b.mid⟩ n ∧ Interval.Spans ⟨b.mid+1,b.last⟩ n ∧
      Interval.cells ⟨b.first,b.mid⟩+Interval.cells ⟨b.mid+1,b.last⟩=b.cells := by
  unfold Interval.Spans at *
  have hm : b.mid+1=b.first+n := by
    unfold Interval.mid
    omega
  refine ⟨hm,?_,Interval.cells_cut (by omega) (by omega)⟩
  dsimp only
  omega

/-- All cells of a list of intervals, with multiplicity. -/
def cells (l : List Interval) : Multiset ℕ := (l.map Interval.cells).sum

@[simp] theorem cells_nil : cells []=0 := rfl

@[simp] theorem cells_cons (b : Interval) (l : List Interval) : cells (b::l)=b.cells+cells l := by simp [cells]

@[simp] theorem cells_append (l m : List Interval) : cells (l++m)=cells l+cells m := by
  simp [cells]

theorem cells_flatMap (f : ℕ → List Interval) (n : ℕ) :
    cells ((List.range n).flatMap f) = ∑ k∈Finset.range n,cells (f k) := by
  induction n with
  | zero => simp
  | succ n ih => simp [range_succ,Finset.sum_range_succ,ih]

theorem cells_perm {l m : List Interval} (h : l.Perm m) : cells l=cells m := (h.map Interval.cells).sum_eq

theorem mem_cells {l : List Interval} {p : ℕ} : p∈cells l ↔ ∃b∈l,b.Contains p := by
  induction l with
  | nil => simp
  | cons b l ih => simp [ih]

theorem card_cells {l : List Interval} (h : ∀b∈l,b.first≤b.last) :
    (cells l).card=(l.map Interval.size).sum := by
  induction l with
  | nil => rfl
  | cons b l ih =>
    obtain ⟨hb,hl⟩:=forall_mem_cons.mp h
    have hcard : b.cells.card=b.size := by
      rw [Interval.cells,Interval.size]
      exact (Nat.card_Ico _ _).trans (by omega)
    rw [cells_cons,Multiset.card_add,hcard,ih hl,map_cons,sum_cons]

theorem sum_update_add {M κ γ : Type*} [AddCommMonoid M] [DecidableEq κ] {t : Finset κ} {k : κ} (hk : k∈t)
    (g : γ → M) (f : κ → γ) (a : γ) : ∑ j∈t,g (update f k a j)+g (f k) = ∑ j∈t,g (f j)+g a := by
  have hrest : ∑ j∈t.erase k,g (update f k a j) = ∑ j∈t.erase k,g (f j) := by
    apply Finset.sum_congr rfl
    intro j hj
    rw [update_of_ne (Finset.ne_of_mem_erase hj)]
  have hnew := Finset.add_sum_erase t (fun j => g (update f k a j)) hk
  have hold := Finset.add_sum_erase t (fun j => g (f j)) hk
  rw [← hnew,← hold,hrest,update_self]
  abel

/-- Consecutive intervals of `width` cells each, starting at `start`. -/
def chunks (start width n : ℕ) : List Interval :=
  (List.range n).map fun j => ⟨start+j*width,start+(j+1)*width - 1⟩

theorem chunks_spans {start width n : ℕ} (hw : 0<width) : ∀b∈chunks start width n,b.Spans width := by
  intro b hb
  obtain ⟨j,-,rfl⟩:=mem_map.mp hb
  simp only [Interval.Spans]
  have hj : start+(j+1)*width=start+j*width+width := by ring
  omega

theorem chunks_succ (start width n : ℕ) : chunks start width (n+1) =
    chunks start width n++[⟨start+n*width,start+(n+1)*width - 1⟩] := by
  simp [chunks,range_succ]

theorem cells_chunks {start width : ℕ} (hw : 0<width) (n : ℕ) :
    cells (chunks start width n)=Multiset.Ico start (start+n*width) := by
  induction n with
  | zero => simp [chunks]
  | succ n ih =>
    have hend : start+(n+1)*width - 1+1=start+(n+1)*width := by
      have : (n+1)*width=n*width+width := by ring
      omega
    rw [chunks_succ,cells_append,ih,cells_cons,cells_nil,add_zero,Interval.cells,hend]
    exact Multiset.Ico_add_Ico_eq_Ico (Nat.le_add_right _ _)
      (Nat.add_le_add_left (Nat.mul_le_mul_right _ (Nat.le_succ n)) _)

theorem card_Ico (lo hi : ℕ) : (Multiset.Ico lo hi).card=hi - lo := Nat.card_Ico lo hi

/-- The intervals of `l` are laid side by side over exactly `[lo, hi)`. -/
def Tiles (l : List Interval) (lo hi : ℕ) : Prop := cells l=Multiset.Ico lo hi

theorem pairwise_apart_of_nodup {l : List Interval} (h : (cells l).Nodup) : l.Pairwise Interval.Apart := by
  induction l with
  | nil => exact List.Pairwise.nil
  | cons b l ih =>
    rw [cells_cons,Multiset.nodup_add] at h
    refine pairwise_cons.mpr ⟨?_,ih h.2.1⟩
    intro c hc p hb hp
    exact Multiset.disjoint_left.mp h.2.2 (Interval.mem_cells.mpr hb) (mem_cells.mpr ⟨c,hc,hp⟩)

theorem row_unique {α : Type*} (lo hi : α → ℕ) {l : List α} (h : l.Pairwise fun a b => hi a≤lo b) {i j p : ℕ}
    {a b : α} (ha : l[i]?=some a) (hb : l[j]?=some b) (hp : lo a≤p ∧ p<hi a) (hp' : lo b≤p ∧ p<hi b) : i=j := by
  obtain ⟨hilt,rfl⟩:=List.getElem?_eq_some_iff.mp ha
  obtain ⟨hjlt,rfl⟩:=List.getElem?_eq_some_iff.mp hb
  rw [pairwise_iff_getElem] at h
  rcases lt_trichotomy i j with hlt | heq | hgt
  · have := h i j hilt hjlt hlt
    omega
  · exact heq
  · have := h j i hjlt hilt hgt
    omega

end Sniper.IntervalTilings
