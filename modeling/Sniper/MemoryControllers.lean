import Sniper.MeshRouting

/-!
# The positions of the memory controllers

`computeMemoryControllerPositions` lists the nodes on the edge of the mesh and takes nodes out of
the list at equal distances. On a mesh that is one node wide the list goes down and up again.
-/

namespace Sniper.MeshNetwork
open List

theorem sample_lt {L n k : ℕ} (hn : 0<n) (hle : n≤L) (hk : k<n) : k*(L / n)<L :=
  (Nat.mul_lt_mul_of_pos_right hk (Nat.div_pos hle hn)).trans_le (Nat.mul_div_le L n)

/-- Equidistant indices into a cyclic list are different. -/
theorem sample_injOn {L n : ℕ} (hn : 0<n) (hle : n≤L) (s : ℕ) :
    Set.InjOn (fun i => (i*(L / n)+s) % L) (Set.Iio n) := by
  intro i hi j hj h
  have hmod : i*(L / n) ≡ j*(L / n) [MOD L] := Nat.ModEq.add_right_cancel' s h
  exact Nat.eq_of_mul_eq_mul_right (Nat.div_pos hle hn)
    (hmod.eq_of_lt_of_lt (sample_lt hn hle hi) (sample_lt hn hle hj))

namespace Mesh

/-- The nodes along the edge, clockwise from the first one. -/
def perimeter (m : Mesh) (dimensions : ℤ) : List ℤ :=
  (range m.width.toNat).map (fun i : ℕ => (i : ℤ)) ++
    if 1<dimensions ∧ 1 < m.height then
      (range' 1 (m.height - 2).toNat).map (fun i : ℕ => i*m.width+m.width - 1) ++
      (range m.width.toNat).reverse.map (fun i : ℕ => (m.height - 1)*m.width+i) ++
      (range' 1 (m.height - 2).toNat).reverse.map (fun i : ℕ => i*m.width)
    else []

/-- The entry of the list that the controller gets. -/
def sampledNode (m : Mesh) (dimensions : ℤ) (n : ℕ+) (i : ℕ) : ℤ :=
  let cores := m.perimeter dimensions
  cores.getD ((i*(cores.length / n)+m.width.toNat / 2) % cores.length) 0

def computeMemoryControllerPositions (m : Mesh) (dimensions : ℤ) (n : ℕ+) : Except Abort (List ℤ) :=
  let cores := m.perimeter dimensions
  if 1<dimensions ∧ 1 < m.height ∧ (cores.length : ℤ)≠2*(m.width+m.height - 2) then
    .error .assertion
  else if cores.length<n then .error .assertion
  else .ok ((range n).map fun i => m.concentration*m.sampledNode dimensions n i)

/-- As many masters as asked for, all different and on the edge. -/
structure ControllersPlaced (m : Mesh) (n : ℕ) (cores : List ℤ) : Prop where
  length : cores.length=n
  nodup : cores.Nodup
  master : ∀c∈cores,m.isFakeNode c=false
  edge : ∀c∈cores,(m.computePosition c).1=0 ∨ (m.computePosition c).1=m.width - 1 ∨
    (m.computePosition c).2=0 ∨ (m.computePosition c).2=m.height - 1

variable {m : Mesh} {dimensions : ℤ} {n : ℕ+}

/-- The places of the nodes of the list. -/
def edgePositions (m : Mesh) (dimensions : ℤ) : List (ℤ × ℤ) :=
  (range m.width.toNat).map (fun i : ℕ => ((i : ℤ),(0 : ℤ))) ++
    if 1<dimensions ∧ 1 < m.height then
      (range' 1 (m.height - 2).toNat).map (fun i : ℕ => (m.width - 1,(i : ℤ))) ++
      (range m.width.toNat).reverse.map (fun i : ℕ => ((i : ℤ),m.height - 1)) ++
      (range' 1 (m.height - 2).toNat).reverse.map (fun i : ℕ => ((0 : ℤ),(i : ℤ)))
    else []

theorem perimeter_eq (m : Mesh) (dimensions : ℤ) :
    m.perimeter dimensions=(m.edgePositions dimensions).map fun q => q.2*m.width+q.1 := by
  unfold perimeter edgePositions
  split_ifs <;> simp [Function.comp_def,add_sub_assoc]

theorem edgePositions_bounds {q : ℤ × ℤ} (hq : q∈m.edgePositions dimensions) :
    (0≤q.1 ∧ q.1 < m.width ∧ 0≤q.2 ∧ q.2 < m.height) ∧
      (q.1=0 ∨ q.1=m.width - 1 ∨ q.2=0 ∨ q.2=m.height - 1) := by
  have hw := m.width_pos
  have hh := m.height_pos
  unfold edgePositions at hq
  split_ifs at hq
  · simp only [append_assoc,mem_append,mem_map,mem_range,mem_range'_1,mem_reverse] at hq
    obtain ⟨i,hi,rfl⟩ | ⟨i,hi,rfl⟩ | ⟨i,hi,rfl⟩ | ⟨i,hi,rfl⟩:=hq <;> dsimp only <;> omega
  · simp only [append_nil,mem_map,mem_range] at hq
    obtain ⟨i,hi,rfl⟩:=hq
    dsimp only
    omega

theorem edgePositions_nodup (h : ¬ (1<dimensions ∧ m.width=1 ∧ 1 < m.height)) :
    (m.edgePositions dimensions).Nodup := by
  have hw := m.width_pos
  have hcol : ∀x : ℤ,((range' 1 (m.height - 2).toNat).map fun i : ℕ => (x,(i : ℤ))).Nodup := fun x =>
    Nodup.map (fun i j h => by simpa using h) List.nodup_range'
  have hrow : ∀y : ℤ,((range m.width.toNat).map fun i : ℕ => ((i : ℤ),y)).Nodup := fun y =>
    Nodup.map (fun i j h => by simpa using h) nodup_range
  unfold edgePositions
  split_ifs
  · simp only [append_assoc,nodup_append',map_reverse]
    refine ⟨hrow 0,⟨hcol _,⟨nodup_reverse.mpr (hrow _),nodup_reverse.mpr (hcol _),?_⟩,?_⟩,?_⟩
    all_goals
      intro q hq hq'
      simp only [mem_append,mem_reverse,mem_map,mem_range,mem_range'_1] at hq hq'
      obtain ⟨i,hi,rfl⟩:=hq
      simp only [Prod.mk.injEq] at hq'
    · obtain ⟨j,hj,hx,hy⟩:=hq'
      omega
    · obtain ⟨j,hj,hx,hy⟩ | ⟨j,hj,hx,hy⟩:=hq' <;> omega
    · obtain ⟨j,hj,hx,hy⟩ | ⟨j,hj,hx,hy⟩ | ⟨j,hj,hx,hy⟩:=hq' <;> omega
  · simpa using hrow 0

theorem position_node {q : ℤ × ℤ} (hq : q∈m.edgePositions dimensions) :
    ((q.2*m.width+q.1) % m.width,(q.2*m.width+q.1) / m.width)=q := by
  obtain ⟨⟨hx,hlt,-,-⟩,-⟩:=edgePositions_bounds hq
  rw [Int.mul_comm,Int.mul_add_emod_self_left,Int.emod_eq_of_lt hx hlt,
    Int.mul_add_ediv_left _ _ m.width_pos.ne',Int.ediv_eq_zero_of_lt hx hlt,add_zero]

theorem perimeter_nodup (h : ¬ (1<dimensions ∧ m.width=1 ∧ 1 < m.height)) : (m.perimeter dimensions).Nodup := by
  rw [perimeter_eq]
  refine (edgePositions_nodup h).map_on fun q hq q' hq' heq => ?_
  rw [← position_node hq,← position_node hq',heq]

theorem perimeter_length (hd : 1<dimensions) (hh : 1 < m.height) :
    ((m.perimeter dimensions).length : ℤ)=2*(m.width+m.height - 2) := by
  have hpos := m.width_pos
  simp [perimeter,hd,hh]
  omega

theorem perimeter_narrow (hd : 1<dimensions) (hw : m.width=1) (hh : 1 < m.height) :
    m.perimeter dimensions=(range (2*(m.height - 1)).toNat).map fun j : ℕ =>
      min (j : ℤ) (2*(m.height - 1) - j) := by
  rw [perimeter,if_pos ⟨hd,hh⟩,hw]
  refine ext_getElem ?_ fun j h₁ h₂ => ?_
  · simp
    omega
  · rw [length_map,length_range] at h₂
    simp only [getElem_append,getElem_map,getElem_range,getElem_range',getElem_reverse,length_map,
      length_range,length_range',length_append,length_reverse]
    split_ifs <;> push_cast <;> omega

section Sampled

variable (hle : (n : ℕ)≤(m.perimeter dimensions).length)
include hle

theorem sampledNode_eq (i : ℕ) : ∃h,m.sampledNode dimensions n i=(m.perimeter dimensions).get
    ⟨(i*((m.perimeter dimensions).length / n)+m.width.toNat / 2) % (m.perimeter dimensions).length,h⟩ :=
  ⟨Nat.mod_lt _ (n.pos.trans_le hle),by simp [sampledNode,Nat.mod_lt _ (n.pos.trans_le hle)]⟩

theorem sampledNode_mem (i : ℕ) : m.sampledNode dimensions n i∈m.perimeter dimensions := by
  obtain ⟨h,heq⟩:=sampledNode_eq hle i
  exact heq ▸ get_mem _ _

theorem sampledNode_injOn (h : ¬ (1<dimensions ∧ m.width=1 ∧ 1 < m.height)) :
    Set.InjOn (m.sampledNode dimensions n) (Set.Iio n) := by
  intro i hi j hj hij
  obtain ⟨hlt,hi'⟩:=sampledNode_eq hle i
  obtain ⟨hlt',hj'⟩:=sampledNode_eq hle j
  rw [hi',hj',(perimeter_nodup h).get_inj_iff,Fin.mk.injEq] at hij
  exact sample_injOn n.pos hle _ hi hj hij

theorem sampledNode_narrow (hd : 1<dimensions) (hw : m.width=1) (hh : 1 < m.height) {i : ℕ} (hi : i<n) :
    m.sampledNode dimensions n i = min ((i*((m.perimeter dimensions).length / n) : ℕ) : ℤ)
        ((m.perimeter dimensions).length - (i*((m.perimeter dimensions).length / n) : ℕ)) := by
  have hlt := sample_lt n.pos hle hi
  have hlen := perimeter_length hd hh
  simp only [sampledNode,hw,Int.toNat_one,Nat.reduceDiv,add_zero,Nat.mod_eq_of_lt hlt]
  generalize i*((m.perimeter dimensions).length / n)=k at hlt
  have hk : k<(2*(m.height - 1)).toNat := by omega
  rw [hlen,hw,perimeter_narrow hd hw hh]
  simp [hk]
  omega

theorem controllers_nodup_iff : ((range n).map fun i => m.concentration * m.sampledNode dimensions n i).Nodup ↔
    (1<dimensions ∧ m.width=1 ∧ 1 < m.height → ∀i j : ℕ,i<j → j<n →
      (i+j)*((m.perimeter dimensions).length / n)≠(m.perimeter dimensions).length) := by
  have hcancel : ∀a b : ℤ,m.concentration*a=m.concentration*b → a=b := fun a b =>
    mul_left_cancel₀ m.concentration_pos.ne'
  rw [nodup_map_iff_inj_on nodup_range]
  by_cases h : 1<dimensions ∧ m.width=1 ∧ 1 < m.height
  · have hnode := fun i => sampledNode_narrow hle h.1 h.2.1 h.2.2 (i:=i)
    have hpos : 0<(m.perimeter dimensions).length / n := Nat.div_pos hle n.pos
    constructor
    · intro hinj _ i j hij hj heq
      rw [Nat.add_mul] at heq
      refine hij.ne (hinj i (mem_range.mpr (hij.trans hj)) j (mem_range.mpr hj) ?_)
      rw [hnode i (hij.trans hj),hnode j hj]
      congr 1
      omega
    · intro hne i hi j hj heq
      have heq := hcancel _ _ heq
      rw [mem_range] at hi hj
      rw [hnode i hi,hnode j hj] at heq
      have hsum : ∀a b : ℕ,a<b → b<n → a*((m.perimeter dimensions).length / n) +
          b*((m.perimeter dimensions).length / n)≠(m.perimeter dimensions).length :=
        fun a b hab hb => Nat.add_mul a b _ ▸ hne h a b hab hb
      rcases lt_trichotomy i j with hij | hij | hij
      · have := Nat.mul_lt_mul_of_pos_right hij hpos
        have := hsum i j hij hj
        omega
      · exact hij
      · have := Nat.mul_lt_mul_of_pos_right hij hpos
        have := hsum j i hij hi
        omega
  · refine iff_of_true (fun i hi j hj heq => ?_) fun hnarrow => absurd hnarrow h
    exact sampledNode_injOn hle h (mem_range.mp hi) (mem_range.mp hj) (hcancel _ _ heq)

end Sampled

/-- The controllers are placed unless there are too many of them. On a mesh of two dimensions that
is one node wide, no two of them may be taken on the way down and on the way up at one node. -/
theorem controllers_placed_iff (m : Mesh) (dimensions : ℤ) (n : ℕ+) :
    (∃cores,m.computeMemoryControllerPositions dimensions n = .ok cores ∧
      m.ControllersPlaced n cores) ↔ (n : ℕ)≤(m.perimeter dimensions).length ∧
      (1<dimensions ∧ m.width=1 ∧ 1 < m.height → ∀i j : ℕ,i<j → j<n →
        (i+j)*((m.perimeter dimensions).length / n)≠(m.perimeter dimensions).length) := by
  have hnode : ∀p∈m.perimeter dimensions,m.isFakeNode (m.concentration*p)=false ∧
      m.computePosition (m.concentration*p)∈m.edgePositions dimensions := by
    rw [perimeter_eq,forall_mem_map]
    intro q hq
    have hc := m.concentration_pos
    obtain ⟨⟨hx,hlt,hy,hlt'⟩,-⟩:=edgePositions_bounds hq
    have hnode : q.2*m.width+q.1 < m.width*m.height := by nlinarith
    have hlast := mul_lt_mul_of_pos_left hnode hc
    rw [← mul_assoc] at hlast
    rw [computePosition,Int.mul_ediv_cancel_left _ hc.ne',position_node hq]
    exact ⟨by simp [isFakeNode,hlast],hq⟩
  have hassert : ¬ (1<dimensions ∧ 1 < m.height ∧
      ((m.perimeter dimensions).length : ℤ)≠2*(m.width+m.height - 2)) :=
    fun h => h.2.2 (perimeter_length h.1 h.2.1)
  simp only [computeMemoryControllerPositions,if_neg hassert]
  split_ifs with hle
  · exact iff_of_false (by simp) fun h => hle.not_ge h.1
  · rw [not_lt] at hle
    rw [← controllers_nodup_iff hle,and_iff_right hle]
    constructor
    · rintro ⟨cores,hok,hplaced⟩
      cases hok
      exact hplaced.nodup
    · intro hnodup
      refine ⟨_,rfl,by simp,hnodup,fun c hc => ?_,fun c hc => ?_⟩
      all_goals
        obtain ⟨i,-,rfl⟩:=mem_map.mp hc
        have hmem := sampledNode_mem hle i
      · exact (hnode _ hmem).1
      · exact (edgePositions_bounds (hnode _ hmem).2).2

/-- Three controllers for four nodes in a column: the list is 0, 1, 2, 3, 2, 1, and node 2 gets
two of them. -/
theorem controllers_collide : ∃cores,(Mesh.mk 1 4 1 false (by decide) (by decide)
      (by decide)).computeMemoryControllerPositions 2 3 = .ok cores ∧ cores=[0,2,2] ∧
    ¬ (Mesh.mk 1 4 1 false (by decide) (by decide) (by decide)).ControllersPlaced 3 cores :=
  ⟨[0,2,2],by decide,rfl,fun h => absurd h.nodup (by decide)⟩

end Mesh

end Sniper.MeshNetwork
