import Mathlib

/-!
# Ranks by recency of use

An element that is used gets rank 0, and those that were before it move back by one.
-/

namespace Sniper.RecencyRanks
open List

section Touch

variable {α : Type*} [DecidableEq α] {s : Set α} {n : ℕ} {uses : List α} {rank : α → ℕ}

section

variable (rank)

def touch (a : α) : α → ℕ := Function.update (fun x => if rank x < rank a then rank x+1 else rank x) a 0

@[simp] theorem touch_self (a : α) : touch rank a a=0 := Function.update_self ..

theorem touch_of_ne {a x : α} (h : x≠a) :
    touch rank a x=if rank x < rank a then rank x+1 else rank x := Function.update_of_ne h ..

end

/-- The elements of `s` are ranked from 0 to `n - 1` by their last use; `uses` has the latest
use first. -/
structure Ranked (s : Set α) (n : ℕ) (uses : List α) (rank : α → ℕ) : Prop where
  bijOn : Set.BijOn rank s (Set.Iio n)
  recency : ∀x∈s,∀y∈s,rank x < rank y ↔ uses.idxOf x<uses.idxOf y

theorem Ranked.lt (h : Ranked s n uses rank) {x : α} (hx : x∈s) : rank x<n := h.bijOn.mapsTo hx

theorem Ranked.inj (h : Ranked s n uses rank) {x y : α} (hx : x∈s) (hy : y∈s) (hxy : rank x=rank y) :
    x=y := h.bijOn.injOn hx hy hxy

theorem Ranked.congr (h : Ranked s n uses rank) {rank' : α → ℕ} (hs : ∀x∈s,rank' x=rank x) :
    Ranked s n uses rank' := by
  refine ⟨(h.bijOn.congr fun x hx => (hs x hx).symm),?_⟩
  intro x hx y hy
  rw [hs x hx,hs y hy]
  exact h.recency x hx y hy

private theorem touch_injOn (h : Set.InjOn rank s) {a : α} (ha : a∈s) : Set.InjOn (touch rank a) s := by
  intro x hx y hy hxy
  by_cases hxa : x=a
  · by_cases hya : y=a
    · rw [hxa,hya]
    · subst hxa
      rw [touch_self,touch_of_ne rank hya] at hxy
      have hne : rank y≠rank x := fun heq => hya (h hy ha heq)
      split_ifs at hxy
      omega
  · have hxne : rank x≠rank a := fun heq => hxa (h hx ha heq)
    by_cases hya : y=a
    · subst hya
      rw [touch_self,touch_of_ne rank hxa] at hxy
      split_ifs at hxy
      omega
    · have hyne : rank y≠rank a := fun heq => hya (h hy ha heq)
      rw [touch_of_ne rank hxa,touch_of_ne rank hya] at hxy
      apply h hx hy
      split_ifs at hxy <;> omega

private theorem touch_surjOn (h : Set.SurjOn rank s (Set.Iio n)) {a : α} (ha : a∈s) :
    Set.SurjOn (touch rank a) s (Set.Iio n) := by
  intro v hv
  rw [Set.mem_Iio] at hv
  cases v with
  | zero => exact ⟨a,ha,touch_self rank a⟩
  | succ v =>
    by_cases hle : v < rank a
    · obtain ⟨x,hx,rfl⟩:=h (show v∈Set.Iio n from Nat.lt_of_succ_lt hv)
      refine ⟨x,hx,?_⟩
      rw [touch_of_ne rank (fun hxa => by rw [hxa] at hle; exact lt_irrefl _ hle),if_pos hle]
    · obtain ⟨x,hx,hxv⟩:=h (show v+1∈Set.Iio n from hv)
      refine ⟨x,hx,?_⟩
      rw [touch_of_ne rank (fun hxa => by rw [hxa] at hxv; omega),if_neg (by omega),hxv]

theorem Ranked.touch (h : Ranked s n uses rank) {a : α} (ha : a∈s) : Ranked s n (a::uses) (touch rank a) := by
  refine ⟨⟨?_,touch_injOn h.bijOn.injOn ha,touch_surjOn h.bijOn.surjOn ha⟩,?_⟩
  · intro x hx
    have hxn := h.lt hx
    have han := h.lt ha
    rw [Set.mem_Iio]
    by_cases hxa : x=a
    · rw [hxa,touch_self]
      omega
    · rw [touch_of_ne rank hxa]
      split_ifs <;> omega
  · intro x hx y hy
    by_cases hya : y=a
    · rw [hya,touch_self,idxOf_cons_self]
      simp
    · have hyne : rank y≠rank a := fun heq => hya (h.inj hy ha heq)
      rw [touch_of_ne rank hya,idxOf_cons_ne uses (Ne.symm hya)]
      by_cases hxa : x=a
      · rw [hxa,touch_self,idxOf_cons_self]
        refine iff_of_true ?_ (Nat.succ_pos _)
        split_ifs <;> omega
      · have hxne : rank x≠rank a := fun heq => hxa (h.inj hx ha heq)
        rw [touch_of_ne rank hxa,idxOf_cons_ne uses (Ne.symm hxa),Nat.succ_lt_succ_iff,← h.recency x hx y hy]
        split_ifs <;> omega

theorem ranked_range (n : ℕ) : Ranked (Set.Iio n) n (List.range n) id := by
  refine ⟨Set.bijOn_id _,?_⟩
  have hidx : ∀i<n,(List.range n).idxOf i=i := by
    intro i hi
    have hget := nodup_range.idxOf_getElem i (by simpa using hi : i<(List.range n).length)
    rwa [getElem_range] at hget
  intro x hx y hy
  rw [hidx x hx,hidx y hy]
  rfl

end Touch

section Scan

variable {α ρ : Type*} [LT ρ] [DecidableLT ρ]

/-- The candidate of greatest rank; an earlier one wins a tie, and `best` stays where no candidate
beats its rank. -/
def maxScan (rank : α → ρ) (p : α → Bool) (xs : List α) (best : α × ρ) : α × ρ :=
  xs.foldl (fun best i => if best.2 < rank i ∧ p i then (i,rank i) else best) best

theorem maxScan_cases {value : ρ → ℕ} (hvalue : ∀a b : ρ,a<b ↔ value a<value b) (rank : α → ρ) (p : α → Bool)
    (xs : List α) (best : α × ρ) : (maxScan rank p xs best=best ∧ ∀j∈xs,p j → value (rank j)≤value best.2) ∨
      ∃i∈xs,p i ∧ value best.2<value (rank i) ∧ maxScan rank p xs best=(i,rank i) ∧
        ∀j∈xs,p j → value (rank j)≤value (rank i) := by
  induction xs generalizing best with
  | nil => exact Or.inl ⟨rfl,fun j hj => absurd hj not_mem_nil⟩
  | cons x xs ih =>
    have hcons : maxScan rank p (x::xs) best =
        maxScan rank p xs (if best.2 < rank x ∧ p x then (x,rank x) else best) := rfl
    rw [hcons]
    by_cases hx : best.2 < rank x ∧ p x
    · rw [if_pos hx]
      have hbeat := (hvalue _ _).mp hx.1
      right
      rcases ih (x,rank x) with ⟨heq,hall⟩ | ⟨i,hi,hp,hlt,heq,hall⟩
      · refine ⟨x,mem_cons_self,hx.2,hbeat,heq,?_⟩
        intro j hj hpj
        rcases mem_cons.mp hj with rfl | hj
        · exact le_rfl
        · exact hall j hj hpj
      · refine ⟨i,mem_cons_of_mem x hi,hp,hbeat.trans hlt,heq,?_⟩
        intro j hj hpj
        rcases mem_cons.mp hj with rfl | hj
        · exact hlt.le
        · exact hall j hj hpj
    · rw [if_neg hx]
      have hnot : p x → value (rank x)≤value best.2 := fun hp =>
        not_lt.mp fun hlt => hx ⟨(hvalue _ _).mpr hlt,hp⟩
      rcases ih best with ⟨heq,hall⟩ | ⟨i,hi,hp,hlt,heq,hall⟩
      · refine Or.inl ⟨heq,fun j hj hpj => ?_⟩
        rcases mem_cons.mp hj with rfl | hj
        · exact hnot hpj
        · exact hall j hj hpj
      · refine Or.inr ⟨i,mem_cons_of_mem x hi,hp,hlt,heq,fun j hj hpj => ?_⟩
        rcases mem_cons.mp hj with rfl | hj
        · exact (hnot hpj).trans hlt.le
        · exact hall j hj hpj

end Scan

end Sniper.RecencyRanks
