import Mathlib

/-!
# Lists alternating with single elements

The in-order traversal of a node alternates between the lists of its children and its own elements.
-/

namespace Sniper.AlternatingLists
open List

variable {α : Type*} (f : ℕ → List α) (s : ℕ → α)

def before (i : ℕ) : List α := (range i).flatMap fun j => f j++[s j]

def after (i m : ℕ) : List α := (range' i m).flatMap fun j => s j::f (j+1)

/-- The lists up to `f n`, with `s i` between `f i` and `f (i + 1)`. -/
def alternate (n : ℕ) : List α := before f s n++f n

theorem before_succ (i : ℕ) : before f s (i+1)=before f s i++(f i++[s i]) := by
  simp [before,range_succ]

theorem after_succ (i m : ℕ) : after f s i (m+1)=s i::(f (i+1)++after f s (i+1) m) := by
  simp [after,range'_succ]

theorem alternate_eq (i m : ℕ) : alternate f s (i+m)=before f s i++(f i++after f s i m) := by
  induction m generalizing i with
  | zero => simp [alternate,after]
  | succ m ih =>
    rw [← Nat.add_assoc,Nat.add_right_comm,ih,before_succ,after_succ]
    simp

/-- The part from `f k` on. -/
theorem alternate_shift (k m : ℕ) : alternate (fun j => f (k+j)) (fun j => s (k+j)) m=f k++after f s k m := by
  have h := alternate_eq (fun j => f (k+j)) (fun j => s (k+j)) 0 m
  rw [Nat.zero_add] at h
  rw [h]
  simp [before,after,range'_eq_map_range,flatMap_map,Nat.add_assoc]

variable {f s} {f' : ℕ → List α} {s' : ℕ → α} {i n : ℕ}

theorem before_congr (h : ∀j < i,f' j=f j ∧ s' j=s j) : before f' s' i=before f s i := by
  refine flatMap_congr fun j hj => ?_
  rw [(h j (mem_range.1 hj)).1,(h j (mem_range.1 hj)).2]

theorem alternate_congr (hf : ∀i≤n,f' i=f i) (hs : ∀i<n,s' i=s i) : alternate f' s' n=alternate f s n := by
  rw [alternate,alternate,before_congr fun j hj => ⟨hf j hj.le,hs j hj⟩,hf n le_rfl]

theorem alternate_split (hin : i≤n) : alternate f s n=before f s i++(f i++after f s i (n - i)) := by
  rw [← alternate_eq,Nat.add_sub_cancel' hin]

variable (f f' s) in
/-- One list is replaced. -/
theorem alternate_replace (hin : i≤n) (h : ∀j,j≠i → f' j=f j) :
    alternate f' s n=before f s i++(f' i++after f s i (n - i)) := by
  rw [alternate_split hin,before_congr fun j hj => ⟨h j hj.ne,rfl⟩,after,after]
  congr 2
  refine flatMap_congr fun j hj => ?_
  rw [h (j+1) (by have := mem_range'_1.1 hj; omega)]

variable (f f' s s') in
/-- One list is replaced by two with an element between them. -/
theorem alternate_insert (hin : i≤n) (hbefore : ∀j < i,f' j=f j ∧ s' j=s j)
    (hafter : ∀j,i≤j → j<n → f' (j+2)=f (j+1) ∧ s' (j+1)=s j) :
    alternate f' s' (n+1)=before f s i++(f' i++s' i::(f' (i+1)++after f s i (n - i))) := by
  obtain ⟨m,rfl⟩:=Nat.exists_eq_add_of_le hin
  rw [Nat.add_assoc,alternate_eq,before_congr hbefore,after_succ,Nat.add_sub_cancel_left]
  have hrest : after f' s' (i+1) m=after f s i m := by
    rw [after,after,range'_eq_map_range,range'_eq_map_range,flatMap_map,flatMap_map]
    refine flatMap_congr fun j hj => ?_
    have h := hafter (i+j) (by omega) (by have := mem_range.1 hj; omega)
    rw [show i+1+j=i+j+1 by omega,h.1,h.2]
  rw [hrest]

theorem mem_alternate {e : α} : e∈alternate f s n ↔ (∃i<n,s i=e) ∨ ∃i≤n,e∈f i := by
  simp only [alternate,before,mem_append,mem_flatMap,mem_range,mem_singleton]
  constructor
  · rintro (⟨i,hi,he | rfl⟩ | he)
    · exact .inr ⟨i,hi.le,he⟩
    · exact .inl ⟨i,hi,rfl⟩
    · exact .inr ⟨n,le_rfl,he⟩
  · rintro (⟨i,hi,rfl⟩ | ⟨i,hi,he⟩)
    · exact .inl ⟨i,hi,.inr rfl⟩
    · obtain hlt | rfl:=hi.lt_or_eq
      · exact .inl ⟨i,hlt,.inl he⟩
      · exact .inr he

theorem mem_before {j : ℕ} (h : j < i) : s j∈before f s i := mem_flatMap.2 ⟨j,mem_range.2 h,by simp⟩

theorem mem_after {j : ℕ} (h : i≤j) (hj : j<n) : s j∈after f s i (n - i) :=
  mem_flatMap.2 ⟨j,mem_range'_1.2 ⟨h,by omega⟩,by simp⟩

theorem mul_le_alternate {m : ℕ} (h : ∀i≤n,m≤(f i).length+1) : (n+1)*m≤(alternate f s n).length+1 := by
  induction n with
  | zero => simpa [alternate,before] using h 0 le_rfl
  | succ n ih =>
    have hrest := ih fun i hi => h i (hi.trans n.le_succ)
    have hlast := h (n+1) le_rfl
    rw [alternate,length_append] at hrest ⊢
    rw [before_succ,length_append,length_append,length_singleton,Nat.succ_mul]
    omega

variable {R : α → α → Prop} (h : (alternate f s n).Pairwise R)
include h

theorem pairwise_split (hin : i≤n) : (before f s i).Pairwise R ∧ ((f i).Pairwise R ∧
    (after f s i (n - i)).Pairwise R ∧ ∀d∈f i,∀e∈after f s i (n - i),R d e) ∧
    ∀d∈before f s i,∀e∈f i++after f s i (n - i),R d e := by
  rwa [alternate_split hin,pairwise_append,pairwise_append] at h

theorem pairwise_elements {j : ℕ} (hij : i<j) (hj : j<n) : R (s i) (s j) :=
  (pairwise_split h hj.le).2.2 _ (mem_before hij) _ (mem_append_right _ (mem_after le_rfl hj))

/-- A list between two elements. -/
theorem pairwise_between (hin : i≤n) {e : α} (he : e∈f i) : (∀j < i,R (s j) e) ∧ ∀j,i≤j → j<n → R e (s j) := by
  obtain ⟨-,⟨-,-,hright⟩,hleft⟩:=pairwise_split h hin
  exact ⟨fun j hj => hleft _ (mem_before hj) _ (mem_append_left _ he),
    fun j hj hjn => hright e he _ (mem_after hj hjn)⟩

/-- The last element before a list bounds what comes before the list. -/
theorem of_mem_before {k : ℕ} (hk : k<n) {d : α} (hd : d∈before f s (k+1)) : d=s k ∨ R d (s k) := by
  have hpair := (pairwise_split h hk).1
  rw [before_succ,← append_assoc] at hd hpair
  obtain hd | hd:=mem_append.1 hd
  · exact .inr ((pairwise_append.1 hpair).2.2 d hd _ mem_cons_self)
  · exact .inl (mem_singleton.1 hd)

theorem of_mem_after (hin : i<n) {d : α} (hd : d∈after f s i (n - i)) : d=s i ∨ R (s i) d := by
  have hpair := (pairwise_split h hin.le).2.1.2.1
  rw [show n - i=n - (i+1)+1 by omega,after_succ] at hd hpair
  exact (mem_cons.1 hd).imp_right fun hd => (pairwise_cons.1 hpair).1 d hd

end Sniper.AlternatingLists
