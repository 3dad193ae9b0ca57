import Sniper.AlternatingLists
import Sniper.RangeTableBtree

/-! # What insertion keeps of a range table -/

namespace Sniper.RangeTable
open FallibleRuns PhysicalMemory List AlternatingLists

namespace TreeNode

theorem scan_spec (slots : ℕ → Slot) (k r i : ℕ) : i ≤ scan slots k r i ∧ scan slots k r i ≤ i+r ∧
      (∀j,i≤j → j<scan slots k r i → (slots j).second<k) ∧
      (scan slots k r i < i+r → k≤(slots (scan slots k r i)).second) := by
  induction r generalizing i with
  | zero => exact ⟨le_rfl,le_rfl,fun j h h' => absurd h' (by rw [scan]; omega),
      fun h => absurd h (by rw [scan]; omega)⟩
  | succ r ih =>
    rw [scan]
    split_ifs with h
    · obtain ⟨hle,hub,hbelow,hstop⟩:=ih (i+1)
      refine ⟨by omega,by omega,fun j hj hj' => ?_,fun hlt => hstop (by omega)⟩
      rcases Nat.eq_or_lt_of_le hj with rfl | hj
      · exact h
      · exact hbelow j hj hj'
    · exact ⟨le_rfl,by omega,fun j hj hj' => absurd hj' (by omega),fun _ => not_lt.mp h⟩

theorem stop_le (x : TreeNode) (k : ℕ) : x.stop k≤x.n := by
  have h := (scan_spec x.slots k x.n 0).2.1
  rwa [Nat.zero_add] at h

theorem second_lt_of_lt_stop {x : TreeNode} {k j : ℕ} (h : j<x.stop k) : (x.slots j).second<k :=
  (scan_spec x.slots k x.n 0).2.2.1 j (Nat.zero_le j) h

theorem le_second_stop {x : TreeNode} {k : ℕ} (h : x.stop k<x.n) : k≤(x.slots (x.stop k)).second := by
  refine (scan_spec x.slots k x.n 0).2.2.2 ?_
  rwa [Nat.zero_add]

theorem insertionIndex_spec (slots : ℕ → Slot) (e : Slot) (n : ℕ) : insertionIndex slots e n≤n ∧
      (∀j,insertionIndex slots e n≤j → j<n → e.KeyLt (slots j)) ∧
      ∀j,j+1=insertionIndex slots e n → ¬ e.KeyLt (slots j) := by
  induction n with
  | zero => exact ⟨le_rfl,fun j _ h => absurd h (Nat.not_lt_zero j),fun j h => absurd h (Nat.succ_ne_zero j)⟩
  | succ n ih =>
    rw [insertionIndex]
    split_ifs with h
    · obtain ⟨hle,habove,hbelow⟩:=ih
      refine ⟨by omega,fun j hj hj' => ?_,hbelow⟩
      rcases Nat.eq_or_lt_of_le (Nat.lt_succ_iff.mp hj') with rfl | hj'
      · exact h
      · exact habove j hj hj'
    · refine ⟨le_rfl,fun j hj hj' => absurd hj' (by omega),fun j hj => ?_⟩
      cases hj
      exact h

/-- The keys in use are ordered and lie between the bounds. -/
structure Keys (t : ℕ) (x : TreeNode) (lo hi : ℕ) : Prop where
  bounds : lo≤hi
  size : x.n≤2*t - 1
  proper : ∀i,i<x.n → (x.slots i).first≤(x.slots i).second
  lower : ∀i,i<x.n → lo≤(x.slots i).first
  upper : ∀i,i<x.n → (x.slots i).second≤hi
  sorted : ∀i j,i<j → j<x.n → (x.slots i).second≤(x.slots j).first

def lowerBound (x : TreeNode) (lo : ℕ) : ℕ → ℕ
  | 0 => lo
  | i+1 => (x.slots i).second

def upperBound (x : TreeNode) (hi i : ℕ) : ℕ := if i<x.n then (x.slots i).first else hi

/-- Every slot, in use or not, is blank or holds an inserted entry. -/
def Remembers (S : Set Slot) (x : TreeNode) : Prop := ∀i,x.slots i = .blank ∨ x.slots i∈S

/-- A subtree of height `h` whose keys lie between the bounds. -/
def Ordered (t : ℕ) (S : Set Slot) : ℕ → TreeNode → ℕ → ℕ → Prop
  | 0,x,lo,hi => x.leaf=true ∧ Keys t x lo hi ∧ Remembers S x
  | h+1,x,lo,hi => x.leaf=false ∧ Keys t x lo hi ∧ Remembers S x ∧
      ∀i,i≤x.n → ∃c,x.C i=some c ∧
        Ordered t S h c (x.lowerBound lo i) (x.upperBound hi i)

def entries : ℕ → TreeNode → Set Slot
  | 0,x => {e | ∃i,i<x.n ∧ x.slots i=e}
  | h+1,x => {e | ∃i,i<x.n ∧ x.slots i=e} ∪
      {e | ∃i c,i≤x.n ∧ x.C i=some c ∧ e∈entries h c}

section Bounds

variable {t : ℕ} {x : TreeNode} {lo hi : ℕ}

variable {i : ℕ}

variable (h : Keys t x lo hi)
include h

theorem Keys.le_lowerBound (hi' : i≤x.n) : lo≤x.lowerBound lo i := by
  cases i with
  | zero => exact le_rfl
  | succ i => exact (h.lower i hi').trans (h.proper i hi')

theorem Keys.upperBound_le (i : ℕ) : x.upperBound hi i≤hi := by
  rw [upperBound]
  split_ifs with hi'
  · exact (h.proper i hi').trans (h.upper i hi')
  · exact le_rfl

theorem Keys.second_le_lowerBound {j : ℕ} (hj : j < i) (hi' : i≤x.n) :
    (x.slots j).second≤x.lowerBound lo i := by
  cases i with
  | zero => exact absurd hj (Nat.not_lt_zero j)
  | succ i =>
    rcases Nat.eq_or_lt_of_le (Nat.lt_succ_iff.mp hj) with rfl | hj
    · exact le_rfl
    · exact (h.sorted j i hj hi').trans (h.proper i hi')

theorem Keys.upperBound_le_first {j : ℕ} (hj : i≤j) (hjn : j<x.n) : x.upperBound hi i≤(x.slots j).first := by
  rw [upperBound,if_pos (lt_of_le_of_lt hj hjn)]
  rcases Nat.eq_or_lt_of_le hj with rfl | hj
  · exact le_rfl
  · exact (h.proper i (hj.trans hjn)).trans (h.sorted i j hj hjn)

end Bounds

theorem Ordered.keys {t h : ℕ} {S : Set Slot} {x : TreeNode} {lo hi : ℕ} (hx : Ordered t S h x lo hi) :
    Keys t x lo hi := by
  cases h with
  | zero => exact hx.2.1
  | succ h => exact hx.2.1

theorem Ordered.remembers {t h : ℕ} {S : Set Slot} {x : TreeNode} {lo hi : ℕ} (hx : Ordered t S h x lo hi) :
    Remembers S x := by
  cases h with
  | zero => exact hx.2.2
  | succ h => exact hx.2.2.1

section Shift

variable {slots : ℕ → Slot} {n i j : ℕ} {e : Slot}

theorem shiftIn_of_lt (h : j < i) : shiftIn slots n i e j=slots j := if_pos h

theorem shiftIn_self : shiftIn slots n i e i=e := by
  rw [shiftIn,if_neg (lt_irrefl i),if_pos rfl]

theorem shiftIn_succ (h : i≤j) (hj : j<n) : shiftIn slots n i e (j+1)=slots j := by
  rw [shiftIn,if_neg (by omega),if_neg (by omega),if_pos (by omega),Nat.add_sub_cancel]

theorem shiftIn_mem {S : Set Slot} (h : ∀j,slots j = .blank ∨ slots j∈S) (he : e = .blank ∨ e∈S) (j : ℕ) :
    shiftIn slots n i e j = .blank ∨ shiftIn slots n i e j∈S := by
  rw [shiftIn]
  split_ifs
  · exact h j
  · exact he
  · exact h (j - 1)
  · exact h j

end Shift

def inorder : ℕ → TreeNode → List Slot
  | 0,x => alternate (fun _ => []) x.slots x.n
  | h+1,x => alternate (fun i => (x.C i).elim [] (inorder h)) x.slots x.n

/-- The lists between the keys of a node. -/
def lists : ℕ → TreeNode → ℕ → List Slot
  | 0,_,_ => []
  | h+1,x,i => (x.C i).elim [] (inorder h)

theorem inorder_eq (h : ℕ) (x : TreeNode) : inorder h x=alternate (lists h x) x.slots x.n := by
  cases h <;> rfl

/-- A subtree of height `h` whose nodes are filled as they should be. -/
def Shape (t : ℕ) (S : Set Slot) : ℕ → TreeNode → Prop
  | 0,x => x.leaf=true ∧ x.n≤2*t - 1 ∧ Remembers S x
  | h+1,x => x.leaf=false ∧ x.n≤2*t - 1 ∧ Remembers S x ∧
      ∀i≤x.n,∃c,x.C i=some c ∧ t - 1 ≤ c.n ∧ Shape t S h c

section Subtrees

variable {t : ℕ} {S : Set Slot} {h : ℕ} {x y : TreeNode} {i j : ℕ} {ppn : UInt64}

theorem Shape.size (hx : Shape t S h x) : x.n≤2*t - 1 := by
  cases h with
  | zero => exact hx.2.1
  | succ h => exact hx.2.1

theorem Shape.remembers (hx : Shape t S h x) : Remembers S x := by
  cases h with
  | zero => exact hx.2.2
  | succ h => exact hx.2.2.1

theorem Shape.mono {S' : Set Slot} (hS : S ⊆ S') (hx : Shape t S h x) : Shape t S' h x := by
  induction h generalizing x with
  | zero => exact ⟨hx.1,hx.2.1,fun i => (hx.2.2 i).imp_right fun he => hS he⟩
  | succ h ih =>
    refine ⟨hx.1,hx.2.1,fun i => (hx.2.2.1 i).imp_right fun he => hS he,fun i hin => ?_⟩
    obtain ⟨c,hc,hmin,ho⟩:=hx.2.2.2 i hin
    exact ⟨c,hc,hmin,ih ho⟩

theorem Shape.height_eq (hx : Shape t S h x) : x.height=h := by
  induction h generalizing x with
  | zero =>
    obtain ⟨leaf,n,ppn,slots,c⟩:=x
    rw [height]
    exact if_pos hx.1
  | succ h ih =>
    obtain ⟨c,hc,-,ho⟩:=hx.2.2.2 0 (Nat.zero_le _)
    obtain ⟨leaf,n,ppn,slots,cs⟩:=x
    obtain rfl : leaf=false:=hx.1
    have hc : cs 0=some c := hc
    rw [height,hc,heightBelow,ih ho]
    rfl

theorem Shape.lowerHalf (hy : Shape t S h y) (hn : y.n=2*t - 1) : Shape t S h (lowerHalf t y) := by
  have hsize : t - 1≤2*t - 1 := by omega
  cases h with
  | zero => exact ⟨hy.1,hsize,hy.remembers⟩
  | succ h => exact ⟨hy.1,hsize,hy.remembers,fun i (hin : i≤t - 1) => hy.2.2.2 i (by omega)⟩

theorem Shape.upperHalf (hy : Shape t S h y) (hn : y.n=2*t - 1) (ht : 2≤t) (ppn : UInt64) :
    Shape t S h (upperHalf t y ppn) := by
  have hsize : t - 1≤2*t - 1 := by omega
  have hrem : Remembers S (TreeNode.upperHalf t y ppn) := by
    intro i
    by_cases hin : i<t - 1
    · have hslot : (TreeNode.upperHalf t y ppn).slots i=y.slots (i+t) := if_pos hin
      exact hslot ▸ hy.remembers (i+t)
    · exact .inl (if_neg hin)
  cases h with
  | zero => exact ⟨hy.1,hsize,hrem⟩
  | succ h =>
    refine ⟨hy.1,hsize,hrem,fun i (hin : i≤t - 1) => ?_⟩
    obtain ⟨c,hc,ho⟩:=hy.2.2.2 (i+t) (by omega)
    exact ⟨c,(if_pos ⟨hy.1,by omega⟩).trans hc,ho⟩

/-- The two halves of a full node and its middle entry. -/
theorem Shape.inorder_halves (hy : Shape t S h y) (hn : y.n=2*t - 1) (ht : 2≤t) (ppn : UInt64) :
    inorder h y=inorder h (TreeNode.lowerHalf t y)++
      y.slots (t - 1)::inorder h (TreeNode.upperHalf t y ppn) := by
  obtain ⟨u,rfl⟩ : ∃u,t=u+1:=⟨t - 1,by omega⟩
  have hupper : inorder h (TreeNode.upperHalf (u+1) y ppn)=
      alternate (fun j => lists h y (u+1+j)) (fun j => y.slots (u+1+j)) u := by
    rw [inorder_eq]
    refine alternate_congr (fun i hin => ?_) fun i hin => ?_
    · cases h with
      | zero => rfl
      | succ h =>
        have hC : (TreeNode.upperHalf (u+1) y ppn).C i=y.C (i+(u+1)) := if_pos ⟨hy.1,Nat.lt_succ_of_le hin⟩
        rw [lists,lists,hC,Nat.add_comm i]
    · exact (if_pos hin).trans (by rw [Nat.add_comm])
  have hlower : inorder h (TreeNode.lowerHalf (u+1) y)=before (lists h y) y.slots u++lists h y u := by
    cases h <;> rfl
  rw [hlower,hupper,alternate_shift,inorder_eq,hn,show 2*(u+1) - 1=u+(u+1) by omega,alternate_eq,after_succ,
    append_assoc]
  rfl

theorem splitChild_C_of_lt (hj : j < i) : (splitChild t x i y ppn).C j=x.C j := if_pos hj

theorem splitChild_C_self : (splitChild t x i y ppn).C i=some (lowerHalf t y) :=
  (if_neg (lt_irrefl i)).trans (if_pos rfl)

theorem splitChild_C_next : (splitChild t x i y ppn).C (i+1)=some (upperHalf t y ppn) :=
  (if_neg (by omega)).trans ((if_neg (by omega)).trans (if_pos rfl))

theorem splitChild_C_succ (hj : i<j) (hjn : j≤x.n) : (splitChild t x i y ppn).C (j+1)=x.C j :=
  (if_neg (by omega)).trans ((if_neg (by omega)).trans ((if_neg (by omega)).trans
    (if_pos (by omega))))

theorem Shape.splitChild (hx : Shape t S (h+1) x) (ppn : UInt64) (hin : i≤x.n) (hfull : x.n<2*t - 1)
    (hy : x.C i=some y) (hn : y.n=2*t - 1) (ht : 2≤t) : Shape t S (h+1) (splitChild t x i y ppn) := by
  obtain ⟨c,hc,-,ho⟩:=hx.2.2.2 i hin
  obtain rfl : y=c:=Option.some.inj (hy.symm.trans hc)
  refine ⟨hx.1,hfull,shiftIn_mem hx.remembers (ho.remembers (t - 1)),fun j (hj : j≤x.n+1) => ?_⟩
  obtain hlt | rfl | rfl | hgt : j < i ∨ j=i ∨ j=i+1 ∨ i+1<j := by omega
  · obtain ⟨c,hc,hc'⟩:=hx.2.2.2 j (by omega)
    exact ⟨c,(splitChild_C_of_lt hlt).trans hc,hc'⟩
  · exact ⟨_,splitChild_C_self,le_rfl,ho.lowerHalf hn⟩
  · exact ⟨_,splitChild_C_next,le_rfl,ho.upperHalf hn ht ppn⟩
  · obtain ⟨l,rfl⟩ : ∃l,j=l+1:=⟨j - 1,by omega⟩
    obtain ⟨c,hc,hc'⟩:=hx.2.2.2 l (by omega)
    exact ⟨c,(splitChild_C_succ (by omega) (by omega)).trans hc,hc'⟩

theorem Shape.inorder_splitChild (hx : Shape t S (h+1) x) (ppn : UInt64) (hin : i≤x.n) (hy : x.C i=some y)
    (hn : y.n=2*t - 1) (ht : 2≤t) : inorder (h+1) (TreeNode.splitChild t x i y ppn)=inorder (h+1) x := by
  obtain ⟨c,hc,-,ho⟩:=hx.2.2.2 i hin
  obtain rfl : y=c:=Option.some.inj (hy.symm.trans hc)
  have hinsert := alternate_insert (lists (h+1) x) x.slots (lists (h+1) (TreeNode.splitChild t x i y ppn))
    (TreeNode.splitChild t x i y ppn).slots hin
    (fun j hj => ⟨by rw [lists,lists,splitChild_C_of_lt hj],shiftIn_of_lt hj⟩)
    fun j hj hjn => ⟨by rw [lists,lists,splitChild_C_succ (by omega) hjn],shiftIn_succ hj hjn⟩
  rw [inorder_eq,inorder_eq,alternate_split hin]
  refine hinsert.trans ?_
  rw [lists,lists,lists,splitChild_C_self,splitChild_C_next,hy,Option.elim_some,Option.elim_some,
    Option.elim_some,ho.inorder_halves hn ht ppn,append_assoc]
  exact congrArg (_++ ·) (congrArg (_++ ·) (congrArg (·::_) shiftIn_self))

theorem setChild_C_self : (x.setChild i y).C i=some y := by
  rw [setChild,C,Function.update_self]

theorem setChild_C_of_ne (hj : j≠i) : (x.setChild i y).C j=x.C j := by
  rw [setChild,C,Function.update_of_ne hj]

theorem Shape.setChild (hx : Shape t S (h+1) x) (hy : Shape t S h y) (hmin : t - 1≤y.n) :
    Shape t S (h+1) (x.setChild i y) := by
  refine ⟨hx.1,hx.size,hx.remembers,fun j hj => ?_⟩
  by_cases hji : j=i
  · subst hji
    exact ⟨y,setChild_C_self,hmin,hy⟩
  · obtain ⟨c,hc,ho⟩:=hx.2.2.2 j hj
    exact ⟨c,(setChild_C_of_ne hji).trans hc,ho⟩

end Subtrees

section Insertion

variable {t : ℕ} {S : Set Slot} {h : ℕ} {x y : TreeNode} {e : Slot} {a : PhysicalMemoryAllocator} {i fuel : ℕ}

/-- The first does not come after the second. -/
def Precedes (d e : Slot) : Prop := ¬ e.KeyLt d

theorem Precedes.trans {c d e : Slot} (h : Precedes c d) (h' : Precedes d e) : Precedes c e := by
  simp only [Precedes,Slot.KeyLt] at *
  omega

/-- The second list is the first with the entry at its place. -/
def Places (e : Slot) (l l' : List Slot) : Prop :=
  ∃lower upper,l=lower++upper ∧ l'=lower++e::upper ∧ (∀d∈lower,Precedes d e) ∧ ∀d∈upper,Precedes e d

theorem Places.pairwise {l l' : List Slot} (hp : Places e l l') (hl : l.Pairwise Precedes) :
    l'.Pairwise Precedes := by
  obtain ⟨lower,upper,rfl,rfl,hlower,hupper⟩:=hp
  obtain ⟨h₁,h₂,h₃⟩:=pairwise_append.1 hl
  refine pairwise_append.2 ⟨h₁,pairwise_cons.2 ⟨hupper,h₂⟩,fun d hd c hc => ?_⟩
  obtain rfl | hc:=mem_cons.1 hc
  · exact hlower d hd
  · exact h₃ d hd c hc

theorem Places.perm {l l' : List Slot} (hp : Places e l l') : l'.Perm (e::l) := by
  obtain ⟨lower,upper,rfl,rfl,-⟩:=hp
  exact perm_middle

/-- The keys around position `i` let `e` in. -/
def Admits (x : TreeNode) (i : ℕ) (e : Slot) : Prop :=
  i≤x.n ∧ (∀k,i=k+1 → Precedes (x.slots k) e) ∧ (i<x.n → Precedes e (x.slots i))

theorem admits_insertionIndex (x : TreeNode) (e : Slot) : Admits x (insertionIndex x.slots e x.n) e := by
  obtain ⟨hle,habove,hbelow⟩:=insertionIndex_spec x.slots e x.n
  exact ⟨hle,fun k hk => hbelow k hk.symm,fun hlt => (habove _ le_rfl hlt).asymm⟩

theorem Admits.sides (hi : Admits x i e) (hx : (inorder h x).Pairwise Precedes) :
    (∀d∈before (lists h x) x.slots i,Precedes d e) ∧
      ∀d∈AlternatingLists.after (lists h x) x.slots i (x.n - i),Precedes e d := by
  obtain ⟨hin,hleft,hright⟩:=hi
  rw [inorder_eq] at hx
  constructor
  · intro d hd
    cases i with
    | zero => exact absurd hd not_mem_nil
    | succ k =>
      obtain rfl | hk:=of_mem_before hx hin hd
      · exact hleft k rfl
      · exact hk.trans (hleft k rfl)
  · intro d hd
    obtain hlt | rfl:=hin.lt_or_eq
    · obtain rfl | hk:=of_mem_after hx hlt hd
      · exact hright hlt
      · exact (hright hlt).trans hk
    · rw [Nat.sub_self] at hd
      exact absurd hd not_mem_nil

/-- What a successful insertion of `e` makes of a subtree. -/
def Inserts (t : ℕ) (S : Set Slot) (h : ℕ) (x : TreeNode) (e : Slot)
    (r : Except Abort (TreeNode × PhysicalMemoryAllocator)) : Prop :=
  ∃x' a,r = .ok (x',a) ∧ x.n≤x'.n ∧ Shape t (insert e S) h x' ∧ Places e (inorder h x) (inorder h x')

theorem Shape.descend (hx : Shape t S (h+1) x) (hsorted : (inorder (h+1) x).Pairwise Precedes)
    (hi : Admits x i e) (hy : x.C i=some y)
    (ih : Shape t S h y → (inorder h y).Pairwise Precedes → Inserts t S h y e (insertNonFull t e h y a)) :
    Inserts t S (h+1) x e (do
      let (c,a) ← insertNonFull t e h y a
      pure (x.setChild i c,a)) := by
  obtain ⟨c,hc,hmin,ho⟩:=hx.2.2.2 i hi.1
  obtain rfl : y=c:=Option.some.inj (hy.symm.trans hc)
  have hlist : lists (h+1) x i=inorder h y := by rw [lists,hy,Option.elim_some]
  have hpair := hsorted
  rw [inorder_eq] at hpair
  obtain ⟨y',a',hr,hn,ho',lower,upper,hl,hl',hlower,hupper⟩:=ih ho (hlist ▸ (pairwise_split hpair hi.1).2.1.1)
  obtain ⟨hbefore,hafter⟩:=hi.sides hsorted
  refine ⟨x.setChild i y',a',by rw [hr]; rfl,le_rfl,
    (hx.mono (Set.subset_insert e S)).setChild ho' (hmin.trans hn),_,_,?_,?_,
    forall_mem_append.2 ⟨hbefore,hlower⟩,forall_mem_append.2 ⟨hupper,hafter⟩⟩
  · rw [inorder_eq,alternate_split hi.1,hlist,hl]
    simp
  · have hreplace := alternate_replace (lists (h+1) x) x.slots (lists (h+1) (x.setChild i y')) hi.1
      fun j hj => by rw [lists,lists,setChild_C_of_ne hj]
    rw [inorder_eq]
    refine hreplace.trans ?_
    rw [lists,setChild_C_self,Option.elim_some,hl']
    simp

theorem insertNonFull_leaf (hleaf : x.leaf=true) (hfull : x.n<2*t - 1) :
    insertNonFull t e fuel x a = .ok (mk x.leaf (x.n+1)
      x.emulatedPpn (shiftIn x.slots x.n (insertionIndex x.slots e x.n) e) x.C,a) := by
  rw [insertNonFull.eq_def]
  simp only [hleaf,if_true,if_neg (show ¬ 2*t - 1≤x.n by omega)]

theorem insertNonFull_split {x' c : TreeNode} (hleaf : x.leaf=false)
    (hy : x.C (insertionIndex x.slots e x.n)=some y) (hn : y.n=2*t - 1)
    (hfull : x.n<2*t - 1) (hx' : x'=splitChild t x (insertionIndex x.slots e x.n) y
    (a.handlePageTableAllocations 4096).1) (hi : i=if (x'.slots (insertionIndex x.slots e
    x.n)).KeyLt e then insertionIndex x.slots e x.n+1 else insertionIndex x.slots e x.n)
    (hc : x'.C i=some c) : insertNonFull t e (fuel+1) x a=(do
      let (c,a) ← insertNonFull t e fuel c (a.handlePageTableAllocations 4096).2
      pure (x'.setChild i c,a)) := by
  subst hi hx'
  rw [insertNonFull.eq_def]
  simp only [hleaf,hy,if_pos hn,if_neg (show ¬ 2*t - 1≤x.n by omega),Bool.false_eq_true,if_false,hc]

/-- After a split, one of the halves takes the entry. -/
theorem exists_half (ppn : UInt64) (hi : Admits x i e) (ht : 2≤t) :
    ∃c j,j=(if ((splitChild t x i y ppn).slots i).KeyLt e then i+1 else i) ∧
      Admits (splitChild t x i y ppn) j e ∧ (splitChild t x i y ppn).C j=some c ∧ c.n<2*t - 1 := by
  obtain ⟨hin,hleft,hright⟩:=hi
  have hhalf : t - 1<2*t - 1 := by omega
  split_ifs with hkey
  · refine ⟨_,_,rfl,⟨Nat.succ_le_succ hin,fun k hk => ?_,fun hlt => ?_⟩,splitChild_C_next,hhalf⟩
    · obtain rfl:=Nat.succ.inj hk
      exact hkey.asymm
    · have hlt : i<x.n := Nat.lt_of_succ_lt_succ hlt
      have hslot : (splitChild t x i y ppn).slots (i+1)=x.slots i := shiftIn_succ le_rfl hlt
      exact hslot ▸ hright hlt
  · refine ⟨_,_,rfl,⟨hin.trans (Nat.le_succ _),fun k hk => ?_,fun _ => hkey⟩,splitChild_C_self,hhalf⟩
    have hslot : (splitChild t x i y ppn).slots k=x.slots k := shiftIn_of_lt (by omega)
    exact hslot ▸ hleft k hk

theorem Shape.insertNonFull (ht : 2≤t) (a : PhysicalMemoryAllocator) (hx : Shape t S h x) (hfull : x.n<2*t - 1)
    (hsorted : (inorder h x).Pairwise Precedes) : Inserts t S h x e (insertNonFull t e h x a) := by
  have hi := admits_insertionIndex x e
  induction h generalizing x a with
  | zero =>
    obtain ⟨hbefore,hafter⟩:=hi.sides hsorted
    refine ⟨_,a,insertNonFull_leaf hx.1 hfull,Nat.le_succ _,⟨hx.1,hfull,shiftIn_mem
      (hx.mono (Set.subset_insert e S)).remembers (.inr (Set.mem_insert e S))⟩,_,_,?_,?_,hbefore,hafter⟩
    · rw [inorder_eq,alternate_split hi.1]
      rfl
    · refine (alternate_insert _ _ _ _ hi.1 (fun j hj => ⟨rfl,shiftIn_of_lt hj⟩)
        fun j hj hjn => ⟨rfl,shiftIn_succ hj hjn⟩).trans ?_
      rw [shiftIn_self]
      rfl
  | succ h ih =>
    obtain ⟨y,hy,-,ho⟩:=hx.2.2.2 _ hi.1
    by_cases hn : y.n=2*t - 1
    · obtain ⟨c,j,hj,hadmits,hc,hcn⟩:=exists_half (y:=y) (a.handlePageTableAllocations 4096).1 hi ht
      have hlist := hx.inorder_splitChild (a.handlePageTableAllocations 4096).1 hi.1 hy hn ht
      rw [insertNonFull_split hx.1 hy hn hfull rfl hj hc]
      obtain ⟨x',a',hr,hle,hshape,hplaces⟩:=(hx.splitChild _ hi.1 hfull hy hn ht).descend (hlist ▸ hsorted)
        hadmits hc fun ho hpair => ih _ ho hcn hpair (admits_insertionIndex c e)
      exact ⟨x',a',hr,(Nat.le_succ _).trans hle,hshape,hlist ▸ hplaces⟩
    · rw [insertNonFull.eq_def]
      simp only [hx.1,hy,if_neg hn,Bool.false_eq_true,if_false]
      exact hx.descend hsorted hi hy fun ho hpair =>
        ih a ho (lt_of_le_of_ne ho.size hn) hpair (admits_insertionIndex y e)

end Insertion

end TreeNode

open TreeNode

/-- The table is a sorted tree of the entries. -/
def RangeTableBtree.Holds (s : RangeTableBtree) (es : List Slot) : Prop :=
  s.root=none ∧ es=[] ∨ ∃root h,s.root=some root ∧ Shape s.t {e | e∈es} h root ∧
    (inorder h root).Pairwise Precedes ∧ (inorder h root).Perm es

section Table

variable {s : State} {es : List Slot} {M : ℕ} {e : Slot}

theorem insert_first (hroot : s.table.root=none) (ht : 2 ≤ s.table.t) :
    ∃s',s.insert e = .ok s' ∧ s'.table.t=s.table.t ∧ s'.table.Holds [e] := by
  rw [State.insert,hroot]
  refine ⟨_,rfl,rfl,
    .inr ⟨_,0,rfl,⟨rfl,show 1≤2*s.table.t - 1 by omega,fun i => ?_⟩,pairwise_singleton _ e,.refl _⟩⟩
  by_cases hi : i=0
  · subst hi
    exact .inr mem_cons_self
  · refine .inl ?_
    rw [slots,Function.update_of_ne hi]

theorem insert_split {root c : TreeNode} {a a' : PhysicalMemoryAllocator} {ppn ppn' : UInt64}
    {x : TreeNode} {j : ℕ} (hroot : s.table.root=some root) (hn : root.n=2*s.table.t - 1)
    (hp : s.allocator.handlePageTableAllocations 4096=(ppn,a))
    (hp' : a.handlePageTableAllocations 4096=(ppn',a'))
    (hx : x=splitChild s.table.t ((TreeNode.new false ppn).setChild 0 root) 0 root ppn')
    (hj : j=if (x.slots 0).KeyLt e then 0+1 else 0) (hc : x.C j=some c) :
    s.insert e=(do
      let (c,a) ← insertNonFull s.table.t e c.height c a'
      pure ⟨⟨s.table.t,some (x.setChild j c)⟩,a⟩) := by
  subst hj hx
  rw [State.insert,hroot]
  simp only [if_pos hn,hp,hp',hc]

theorem shape_newRoot {t h : ℕ} {S : Set Slot} {root : TreeNode} (ppn : UInt64) (hroot : Shape t S h root)
    (hn : root.n=2*t - 1) : Shape t S (h+1) ((TreeNode.new false ppn).setChild 0 root) := by
  refine ⟨rfl,Nat.zero_le _,fun i => .inl rfl,fun i hin => ?_⟩
  obtain rfl : i=0:=Nat.le_zero.mp hin
  exact ⟨root,setChild_C_self,by omega,hroot⟩

theorem insert_holds (ht : 2 ≤ s.table.t) (hs : s.table.Holds es) :
    ∃s',s.insert e = .ok s' ∧ s'.table.t=s.table.t ∧ s'.table.Holds (e::es) := by
  obtain ⟨hroot,rfl⟩ | ⟨root,h,hroot,ho,hsorted,hperm⟩:=hs
  · exact insert_first hroot ht
  have hS : insert e {d | d∈es}={d | d∈e::es} := Set.ext fun d => mem_cons.symm
  have hdone : ∀{x' : TreeNode} {h' l},Shape s.table.t (insert e {d | d∈es}) h' x' →
      Places e l (inorder h' x') → l=inorder h root →
        RangeTableBtree.Holds ⟨s.table.t,some x'⟩ (e::es) := fun hx hp hl => by
    subst hl
    exact .inr ⟨_,_,rfl,hS ▸ hx,hp.pairwise hsorted,hp.perm.trans (hperm.cons e)⟩
  by_cases hn : root.n=2*s.table.t - 1
  · obtain ⟨ppn,a,hp⟩ : ∃p a,s.allocator.handlePageTableAllocations 4096=(p,a):=⟨_,_,rfl⟩
    obtain ⟨ppn',a',hp'⟩ : ∃p b,a.handlePageTableAllocations 4096=(p,b):=⟨_,_,rfl⟩
    have hx := shape_newRoot ppn ho hn
    obtain ⟨c,j,hj,hadmits,hc,hcn⟩:=exists_half (t:=s.table.t) (y:=root) (e:=e)
      (x:=(TreeNode.new false ppn).setChild 0 root) (i:=0) ppn'
      ⟨le_rfl,fun k hk => absurd hk (by omega),fun hlt => absurd hlt (lt_irrefl 0)⟩ ht
    have hlist : inorder (h+1) _=inorder h root :=
      (hx.inorder_splitChild ppn' le_rfl setChild_C_self hn ht).trans rfl
    have hX := hx.splitChild ppn' le_rfl (show 0<2*s.table.t - 1 by omega) setChild_C_self hn ht
    obtain ⟨d,hd,-,hoc⟩:=hX.2.2.2 j hadmits.1
    obtain rfl : c=d:=Option.some.inj (hc.symm.trans hd)
    obtain ⟨x',b,hr,-,hshape,hplaces⟩:=hX.descend (a:=a') (hlist ▸ hsorted) hadmits hc fun ho hpair =>
      ho.insertNonFull ht a' hcn hpair
    obtain ⟨⟨c',b'⟩,hr',heq⟩:=bind_ok hr
    cases heq
    refine ⟨⟨⟨s.table.t,some _⟩,b⟩,?_,rfl,hdone hshape hplaces hlist⟩
    rw [insert_split hroot hn hp hp' rfl hj hc,hoc.height_eq,hr']
    rfl
  · obtain ⟨x',a,hr,-,hshape,
      hplaces⟩:=ho.insertNonFull (e:=e) ht s.allocator (lt_of_le_of_ne ho.size hn) hsorted
    refine ⟨⟨⟨s.table.t,some x'⟩,a⟩,?_,rfl,hdone hshape hplaces rfl⟩
    rw [State.insert,hroot]
    simp only [if_neg hn,ho.height_eq,hr]
    rfl

theorem RangeTableBtree.Holds.perm {s : RangeTableBtree} {es es' : List Slot} (hs : s.Holds es)
    (hp : es.Perm es') :
    s.Holds es' := by
  obtain ⟨hroot,rfl⟩ | ⟨root,h,hroot,ho,hsorted,hperm⟩:=hs
  · exact .inl ⟨hroot,hp.nil_eq.symm⟩
  · exact .inr ⟨root,h,hroot,ho.mono fun e he => hp.mem_iff.1 he,hsorted,hperm.trans hp⟩

theorem run_insert_from {t : ℕ} (es done : List Slot) (ht : 2≤t) (hst : s.table.t=t) (hs : s.table.Holds done) :
    ∃s',run State.insert s es = .ok s' ∧ s'.table.t=t ∧ s'.table.Holds (es++done) := by
  induction es generalizing s done with
  | nil => exact ⟨s,rfl,hst,hs⟩
  | cons e es ih =>
    obtain ⟨s₁,hr₁,ht₁,hs₁⟩:=insert_holds (e:=e) (hst ▸ ht) hs
    obtain ⟨s₂,hr₂,ht₂,hs₂⟩:=ih _ (ht₁.trans hst) hs₁
    refine ⟨s₂,?_,ht₂,hs₂.perm perm_middle⟩
    rw [run_cons,hr₁]
    exact hr₂

theorem run_insert {t : ℕ} (ht : 2≤t) (allocator : PhysicalMemoryAllocator) (es : List Slot) :
    ∃s,run State.insert ⟨.new t,allocator⟩ es = .ok s ∧ s.table.t=t ∧ s.table.Holds es := by
  obtain ⟨s,hr,hst,hs⟩:=run_insert_from (s:=⟨.new t,allocator⟩) es [] ht rfl (.inl ⟨rfl,rfl⟩)
  exact ⟨s,hr,hst,append_nil es ▸ hs⟩

end Table

/-- A subtree of a B-tree of minimum degree `t`, with all its leaves at depth `h`. -/
def TreeNode.BTree (t : ℕ) : ℕ → TreeNode → Prop
  | 0,x => x.leaf=true ∧ x.n≤2*t - 1 ∧ ∀i j,i<j → j<x.n → Precedes (x.slots i) (x.slots j)
  | h+1,x => x.leaf=false ∧ x.n≤2*t - 1 ∧ (∀i j,i<j → j<x.n → Precedes (x.slots i) (x.slots j)) ∧
      ∀i≤x.n,∃c,x.C i=some c ∧ t - 1 ≤ c.n ∧ BTree t h c ∧ ∀e∈inorder h c,
        (∀j < i,Precedes (x.slots j) e) ∧ ∀j,i≤j → j<x.n → Precedes e (x.slots j)

theorem TreeNode.Shape.btree {t h : ℕ} {S : Set Slot} {x : TreeNode} (hx : Shape t S h x)
    (hsorted : (inorder h x).Pairwise Precedes) : BTree t h x := by
  rw [inorder_eq] at hsorted
  have hkeys : ∀i j,i<j → j<x.n → Precedes (x.slots i) (x.slots j) := fun i j => pairwise_elements hsorted
  induction h generalizing x with
  | zero => exact ⟨hx.1,hx.size,hkeys⟩
  | succ h ih =>
    refine ⟨hx.1,hx.size,hkeys,fun i hin => ?_⟩
    obtain ⟨c,hc,hmin,ho⟩:=hx.2.2.2 i hin
    have hlist : lists (h+1) x i=inorder h c := by rw [lists,hc,Option.elim_some]
    have hchild := (pairwise_split hsorted hin).2.1.1
    rw [hlist,inorder_eq] at hchild
    exact ⟨c,hc,hmin,ih ho hchild fun i j => pairwise_elements hchild,fun e he =>
      pairwise_between hsorted hin (hlist ▸ he : e∈lists (h+1) x i)⟩

/-- Any insertions give a B-tree with exactly the inserted entries. -/
theorem insertions_btree {t : ℕ} (ht : 2≤t) (allocator : PhysicalMemoryAllocator) (es : List Slot) :
    ∃s,run State.insert ⟨.new t,allocator⟩ es = .ok s ∧ (s.table.root=none ∧ es=[] ∨
      ∃root h,s.table.root=some root ∧ root.BTree t h ∧ (inorder h root : Multiset Slot)=es) := by
  obtain ⟨s,hr,hst,hs | ⟨root,h,hroot,ho,hsorted,hperm⟩⟩:=run_insert ht allocator es
  · exact ⟨s,hr,.inl hs⟩
  · exact ⟨s,hr,.inr ⟨root,h,hroot,hst ▸ ho.btree hsorted,Multiset.coe_eq_coe.2 hperm⟩⟩

theorem insertions_btree_five : ∃s,
    run State.insert ⟨.new 2,.new 1⟩ [⟨3,4,⟨1⟩⟩,⟨1,9,⟨2⟩⟩,⟨3,4,⟨3⟩⟩,⟨0,2,⟨4⟩⟩,⟨7,8,⟨5⟩⟩] = .ok s ∧
      (s.table.root=none ∧ [⟨3,4,⟨1⟩⟩,⟨1,9,⟨2⟩⟩,⟨3,4,⟨3⟩⟩,⟨0,2,⟨4⟩⟩,⟨7,8,⟨5⟩⟩]=([] : List Slot) ∨
        ∃root h,s.table.root=some root ∧ root.BTree 2 h ∧ (inorder h root : Multiset Slot)=
          ([⟨3,4,⟨1⟩⟩,⟨1,9,⟨2⟩⟩,⟨3,4,⟨3⟩⟩,⟨0,2,⟨4⟩⟩,⟨7,8,⟨5⟩⟩] : List Slot)) :=
  insertions_btree le_rfl (.new 1) _

namespace TreeNode

variable {t : ℕ} {S : Set Slot} {h : ℕ} {x : TreeNode} {lo hi : ℕ}

theorem entries_eq (hx : Shape t S h x) : entries h x={e | e∈inorder h x} := by
  induction h generalizing x with
  | zero =>
    ext e
    rw [inorder_eq,Set.mem_ofPred_eq,mem_alternate]
    simp [entries,lists]
  | succ h ih =>
    ext e
    rw [inorder_eq,Set.mem_ofPred_eq,mem_alternate]
    refine or_congr Iff.rfl ⟨?_,?_⟩
    · rintro ⟨i,c,hin,hc,he⟩
      obtain ⟨d,hd,-,ho⟩:=hx.2.2.2 i hin
      obtain rfl : c=d:=Option.some.inj (hc.symm.trans hd)
      rw [ih ho] at he
      refine ⟨i,hin,?_⟩
      rw [lists,hc]
      exact he
    · rintro ⟨i,hin,he⟩
      obtain ⟨c,hc,-,ho⟩:=hx.2.2.2 i hin
      rw [lists,hc] at he
      exact ⟨i,c,hin,hc,ih ho ▸ he⟩

section Disjoint

variable (hx : Shape t S h x) (hsorted : (inorder h x).Pairwise fun d e => d.second≤e.first)
  (hproper : ∀e∈inorder h x,e.first≤e.second) (hbounds : lo≤hi) (hlo : ∀e∈inorder h x,lo≤e.first)
  (hhi : ∀e∈inorder h x,e.second≤hi)
include hx hsorted hproper hbounds hlo hhi

theorem Shape.keys : Keys t x lo hi := by
  have hslot : ∀i<x.n,x.slots i∈inorder h x := fun i hi => by
    rw [inorder_eq,mem_alternate]
    exact .inl ⟨i,hi,rfl⟩
  rw [inorder_eq] at hsorted
  exact ⟨hbounds,hx.size,fun i hi => hproper _ (hslot i hi),fun i hi => hlo _ (hslot i hi),
    fun i hi => hhi _ (hslot i hi),fun i j => pairwise_elements hsorted⟩

/-- A tree whose entries follow each other without overlap. -/
theorem Shape.ordered : Ordered t S h x lo hi := by
  have hkeys := hx.keys hsorted hproper hbounds hlo hhi
  induction h generalizing x lo hi with
  | zero => exact ⟨hx.1,hkeys,hx.remembers⟩
  | succ h ih =>
    refine ⟨hx.1,hkeys,hx.remembers,fun i hin => ?_⟩
    obtain ⟨c,hc,-,ho⟩:=hx.2.2.2 i hin
    have hlist : lists (h+1) x i=inorder h c := by rw [lists,hc,Option.elim_some]
    have hmem : ∀e∈inorder h c,e∈inorder (h+1) x := fun e he => by
      rw [inorder_eq,mem_alternate]
      exact .inr ⟨i,hin,hlist ▸ he⟩
    rw [inorder_eq] at hsorted
    have hbetween := fun e he => pairwise_between hsorted hin (hlist ▸ he : e∈lists (h+1) x i)
    have hchild := (pairwise_split hsorted hin).2.1.1
    rw [hlist] at hchild
    have hlower : ∀e∈inorder h c,x.lowerBound lo i≤e.first := fun e he => by
      cases i with
      | zero => exact hlo e (hmem e he)
      | succ k => exact (hbetween e he).1 k (Nat.lt_succ_self k)
    have hupper : ∀e∈inorder h c,e.second≤x.upperBound hi i := fun e he => by
      rw [upperBound]
      split_ifs with hlt
      · exact (hbetween e he).2 i le_rfl hlt
      · exact hhi e (hmem e he)
    have hle : x.lowerBound lo i≤x.upperBound hi i := by
      rw [upperBound]
      cases i with
      | zero =>
        split_ifs with hlt
        · exact hkeys.lower 0 hlt
        · exact hbounds
      | succ k =>
        split_ifs with hlt
        · exact hkeys.sorted k (k+1) (Nat.lt_succ_self k) hlt
        · exact hkeys.upper k hin
    have hproper' := fun e he => hproper e (hmem e he)
    exact ⟨c,hc,ih ho hchild hproper' hle hlower hupper (ho.keys hchild hproper' hle hlower hupper)⟩

end Disjoint

end TreeNode

/-- The table is an ordered tree that holds exactly the entries in `S`, all ending by `M`. -/
def RangeTableBtree.Stores (s : RangeTableBtree) (S : Set Slot) (M : ℕ) : Prop :=
  match s.root with
  | none => S = ∅
  | some root => ∃h,Ordered s.t S h root 0 M ∧ entries h root=S

theorem RangeTableBtree.Holds.stores {s : RangeTableBtree} {es : List Slot} {M : ℕ} (hs : s.Holds es)
    (he : ∀e∈es,e.first≤e.second) (hM : ∀e∈es,e.second≤M) (hap : es.Pairwise Slot.Apart) :
    s.Stores {e | e∈es} M := by
  rw [Stores]
  obtain ⟨hroot,rfl⟩ | ⟨root,h,hroot,ho,hsorted,hperm⟩:=hs
  · rw [hroot]
    exact Set.eq_empty_of_forall_notMem fun e => not_mem_nil
  · rw [hroot]
    have hmem : ∀e∈inorder h root,e∈es := fun e => hperm.mem_iff.1
    have hpair := ((hperm.pairwise_iff fun h => h.symm).2 hap).and hsorted
    refine ⟨h,ho.ordered (hpair.imp_of_mem fun hd hc hdc => ?_) (fun e h => he e (hmem e h)) (Nat.zero_le M)
      (fun e _ => Nat.zero_le _) fun e h => hM e (hmem e h),?_⟩
    · exact hdc.1.second_le (he _ (hmem _ hd)) (he _ (hmem _ hc)) hdc.2
    · rw [entries_eq ho]
      exact Set.ext fun e => hperm.mem_iff

end Sniper.RangeTable
