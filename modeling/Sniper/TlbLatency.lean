import Sniper.SubsecondTimes
import Sniper.TlbHierarchy

/-!
# The latency of a TLB hit

The source compares pointers to find the TLB of the hit; here a TLB is known by its number in its
level.
-/

namespace Sniper.PageFaults
open List

variable {ι : Type}

structure TimedTlb (ι : Type) where
  tlb : Tlb ι
  latency : SubsecondTime

/-- `hit_level`, the number of `hit_tlb` in that level, and `tlb_block_info_hit`. -/
structure TlbHit (ι : Type) where
  level : ℕ
  index : ℕ
  entry : TlbEntry ι

structure PageSizePrediction where
  enabled : Bool
  correctLatency : SubsecondTime
  mispredictionLatency : SubsecondTime

/-- `predicted` is the answer of the predictor. -/
def PageSizePrediction.latency (p : PageSizePrediction) (predicted : ℤ) (pageSize : ℕ) : SubsecondTime :=
  if predicted=pageSize then p.correctLatency else p.mispredictionLatency

/-- The TLBs of a level for instructions, or for data, with their numbers. -/
def levelPath (instruction : Bool) (tlbs : List (TimedTlb ι)) : List (TimedTlb ι × ℕ) :=
  tlbs.zipIdx.filter fun x => x.1.tlb.type.serves instruction

def hitInLevel (instruction : Bool) (address : ℕ) (tlbs : List (TimedTlb ι)) : Option (ℕ × TlbEntry ι) :=
  tlbs.zipIdx.foldl (fun hit x =>
    if x.1.tlb.type.serves instruction then ((x.1.tlb.lookup address).map fun e => (x.2,e)).or hit
    else hit) none

def hitInLevels (instruction : Bool) (address : ℕ) : List (List (TimedTlb ι)) → Option (TlbHit ι)
  | [] => none
  | tlbs::rest =>
    match hitInLevel instruction address tlbs with
    | some (index,e) => some ⟨0,index,e⟩
    | none => (hitInLevels instruction address rest).map fun hit => {hit with level:=hit.level+1}

def slowest (path : List (TimedTlb ι × ℕ)) : SubsecondTime :=
  path.foldl (fun latency x => if x.1.latency<latency then latency else x.1.latency) 0

/-- The loop over the TLBs on the path at the level of the hit. -/
def chargeHitLevel (p : PageSizePrediction) (predicted : ℤ) (hit : TlbHit ι) :
    List (TimedTlb ι × ℕ) → SubsecondTime → SubsecondTime
  | [],charged => charged
  | x::path,charged =>
    if hit.level≠1 then
      chargeHitLevel p predicted hit path
        (if x.2=hit.index then charged+x.1.latency else charged)
    else if p.enabled then charged+p.latency predicted hit.entry.pageSize
    else chargeHitLevel p predicted hit path charged

structure TimedHierarchy (ι : Type) where
  tlbs : List (List (TimedTlb ι))
  prediction : PageSizePrediction

namespace TimedHierarchy

variable (m : TimedHierarchy ι) (instruction : Bool)

/-- `getInstructionPath` or `getDataPath` at a level. -/
def path (level : ℕ) : List (TimedTlb ι × ℕ) := levelPath instruction (m.tlbs.getD level [])

def chargedTlbLatency (predicted : ℤ) (hit : TlbHit ι) : SubsecondTime :=
  chargeHitLevel m.prediction predicted hit (m.path instruction hit.level)
    ((List.range hit.level).foldl (fun charged i => charged+slowest (m.path instruction i)) 0)

/-- The latency of the TLB that has the entry, in femtoseconds. -/
def hitLatency (hit : TlbHit ι) : ℕ := ((m.tlbs.getD hit.level [])[hit.index]?).elim 0 fun t => t.latency.toNat

def levelLatency (level : ℕ) : ℕ := ((m.path instruction level).map fun x => x.1.latency.toNat).foldr max 0

/-- What a hit should cost: every level before at its slowest, and then the TLB of the hit, or the
prediction at the second level. -/
def dueLatency (predicted : ℤ) (hit : TlbHit ι) : ℕ :=
  ∑ i∈Finset.range hit.level,m.levelLatency instruction i +
    if hit.level=1 ∧ m.prediction.enabled then
      (m.prediction.latency predicted hit.entry.pageSize).toNat
    else m.hitLatency hit

end TimedHierarchy

theorem hitInLevel_lookup (instruction : Bool) (address : ℕ) (tlbs : List (TimedTlb ι)) :
    (hitInLevel instruction address tlbs).map Prod.snd =
      lookupLevel instruction address (tlbs.map TimedTlb.tlb) := by
  have hfold : ∀n (hit : Option (ℕ × TlbEntry ι)),((tlbs.zipIdx n).foldl (fun hit x =>
      if x.1.tlb.type.serves instruction then
        ((x.1.tlb.lookup address).map fun e => (x.2,e)).or hit
      else hit) hit).map Prod.snd=(tlbs.map TimedTlb.tlb).foldl (fun hit t =>
        if t.type.serves instruction then (t.lookup address).or hit else hit) (hit.map Prod.snd) := by
    induction tlbs with
    | nil => exact fun n hit => rfl
    | cons t tlbs ih =>
      intro n hit
      rw [zipIdx_cons,foldl_cons,map_cons,foldl_cons,ih]
      congr 1
      dsimp only
      split_ifs
      · cases t.tlb.lookup address with
        | none => rfl
        | some e => rfl
      · rfl
  exact hfold 0 none

theorem hitInLevels_lookup (instruction : Bool) (address : ℕ) (tlbs : List (List (TimedTlb ι))) :
    (hitInLevels instruction address tlbs).map (fun hit => (hit.level,hit.entry)) =
      lookupLevels instruction address (tlbs.map (List.map TimedTlb.tlb)) := by
  induction tlbs with
  | nil => rfl
  | cons level rest ih =>
    have hlevel := hitInLevel_lookup instruction address level
    rw [hitInLevels,map_cons,lookupLevels,← hlevel,← ih]
    cases hitInLevel instruction address level with
    | some x => rfl
    | none => cases hitInLevels instruction address rest with
      | some hit => rfl
      | none => rfl

variable {instruction : Bool} {hit : TlbHit ι} {p : PageSizePrediction} {predicted : ℤ}

theorem hitInLevel_some {address index : ℕ} {e : TlbEntry ι} {tlbs : List (TimedTlb ι)}
    (h : hitInLevel instruction address tlbs=some (index,e)) :
    ∃t,tlbs[index]?=some t ∧ t.tlb.type.serves instruction=true := by
  have hfold : ∀ (l : List (TimedTlb ι × ℕ)) (hit : Option (ℕ × TlbEntry ι)),
      (∀x∈l,tlbs[x.2]?=some x.1) →
      (∀i e,hit=some (i,e) → ∃t,tlbs[i]?=some t ∧ t.tlb.type.serves instruction=true) →
      ∀i e,l.foldl (fun hit x => if x.1.tlb.type.serves instruction then
          ((x.1.tlb.lookup address).map fun e => (x.2,e)).or hit else hit) hit=some (i,e) →
        ∃t,tlbs[i]?=some t ∧ t.tlb.type.serves instruction=true := by
    intro l
    induction l with
    | nil => exact fun hit _ hhit => hhit
    | cons x l ih =>
      intro hit hl hhit
      rw [foldl_cons]
      apply ih _ fun y hy => hl y (mem_cons_of_mem _ hy)
      intro i e he
      split_ifs at he with hserves
      · cases hlook : x.1.tlb.lookup address with
        | none =>
          rw [hlook] at he
          exact hhit i e he
        | some e' =>
          rw [hlook] at he
          cases he
          exact ⟨x.1,hl x mem_cons_self,hserves⟩
      · exact hhit i e he
  refine hfold tlbs.zipIdx none ?_ ?_ index e h
  · intro x hx
    exact mem_zipIdx_iff_getElem?.mp hx
  · intro i e he
    cases he

theorem hitInLevels_some {address : ℕ} {tlbs : List (List (TimedTlb ι))}
    (h : hitInLevels instruction address tlbs=some hit) :
    ∃t,(tlbs.getD hit.level [])[hit.index]?=some t ∧ t.tlb.type.serves instruction=true := by
  induction tlbs generalizing hit with
  | nil => cases h
  | cons level rest ih =>
    rw [hitInLevels] at h
    split at h
    · rename_i index e hlevel
      cases h
      exact hitInLevel_some hlevel
    · obtain ⟨hit',hrest,rfl⟩:=Option.map_eq_some_iff.mp h
      exact ih hrest

theorem slowest_toNat (path : List (TimedTlb ι × ℕ)) :
    (slowest path).toNat=(path.map fun x => x.1.latency.toNat).foldr max 0 := by
  have hfold : ∀latency : SubsecondTime,(path.foldl (fun latency x =>
      if x.1.latency<latency then latency else x.1.latency) latency).toNat =
      max latency.toNat ((path.map fun x => x.1.latency.toNat).foldr max 0) := by
    induction path with
    | nil => intro latency; simp
    | cons x path ih =>
      intro latency
      rw [foldl_cons,ih,map_cons,foldr_cons,← max_assoc]
      congr 1
      split_ifs with hlt
      · exact (max_eq_left (le_of_lt hlt)).symm
      · exact (max_eq_right (not_lt.mp hlt)).symm
  rw [slowest,hfold]
  simp

theorem charges_toNat (latencies : ℕ → SubsecondTime) (n : ℕ) :
    ((List.range n).foldl (fun charged i => charged+latencies i) 0).toNat =
      (∑ i∈Finset.range n,(latencies i).toNat) % 2^64 := by
  induction n with
  | zero => rfl
  | succ n ih =>
    rw [range_succ,foldl_append,foldl_cons,foldl_nil,BitVec.toNat_add,ih,Finset.sum_range_succ,
      Nat.mod_add_mod]

theorem chargeHitLevel_other (hlevel : hit.level≠1) {path : List (TimedTlb ι × ℕ)}
    (hpath : ∀x∈path,x.2≠hit.index) (charged : SubsecondTime) :
    chargeHitLevel p predicted hit path charged=charged := by
  induction path with
  | nil => rfl
  | cons x path ih =>
    rw [chargeHitLevel,if_pos hlevel,if_neg (hpath x mem_cons_self)]
    exact ih fun y hy => hpath y (mem_cons_of_mem _ hy)

theorem chargeHitLevel_levelPath (hlevel : hit.level≠1) {tlbs : List (TimedTlb ι)} {t : TimedTlb ι}
    (ht : tlbs[hit.index]?=some t) (hserves : t.tlb.type.serves instruction=true) (charged : SubsecondTime) :
    chargeHitLevel p predicted hit (levelPath instruction tlbs) charged=charged+t.latency := by
  have hfrom : ∀ (n : ℕ) (tlbs : List (TimedTlb ι)),n≤hit.index → tlbs[hit.index - n]?=some t →
      chargeHitLevel p predicted hit
        ((tlbs.zipIdx n).filter fun x => x.1.tlb.type.serves instruction) charged =
        charged+t.latency := by
    intro n tlbs hn ht
    induction tlbs generalizing n with
    | nil => cases ht
    | cons u tlbs ih =>
      rw [zipIdx_cons]
      by_cases heq : n=hit.index
      · rw [heq,Nat.sub_self] at ht
        cases ht
        simp only [filter_cons,hserves,↓reduceIte]
        rw [chargeHitLevel,if_pos hlevel,if_pos heq]
        apply chargeHitLevel_other hlevel
        intro x hx
        have := (mem_zipIdx (mem_of_mem_filter hx)).1
        omega
      · have hrest := ih (n+1) (by omega) (by
          rw [show hit.index - n=hit.index - (n+1)+1 by omega] at ht
          exact ht)
        rw [filter_cons]
        split_ifs
        · rw [chargeHitLevel,if_pos hlevel,if_neg heq]
          exact hrest
        · exact hrest
  exact hfrom 0 tlbs (Nat.zero_le _) ht

theorem chargeHitLevel_predicted (hlevel : hit.level=1) (henabled : p.enabled=true)
    {path : List (TimedTlb ι × ℕ)} (hpath : path≠[]) (charged : SubsecondTime) :
    chargeHitLevel p predicted hit path charged=charged+p.latency predicted hit.entry.pageSize := by
  obtain ⟨x,path,rfl⟩:=exists_cons_of_ne_nil hpath
  rw [chargeHitLevel,if_neg (not_not.mpr hlevel),if_pos henabled]

theorem chargeHitLevel_unpredicted (hlevel : hit.level=1) (henabled : p.enabled=false)
    (path : List (TimedTlb ι × ℕ)) (charged : SubsecondTime) :
    chargeHitLevel p predicted hit path charged=charged := by
  induction path with
  | nil => rfl
  | cons x path ih =>
    rw [chargeHitLevel,if_neg (not_not.mpr hlevel),henabled]
    exact ih

namespace TimedHierarchy

variable {m : TimedHierarchy ι} {instruction : Bool} {address : ℕ} {hit : TlbHit ι}

theorem chargedTlbLatency_toNat (h : hitInLevels instruction address m.tlbs=some hit)
    (predicted : ℤ) :
    (m.chargedTlbLatency instruction predicted hit).toNat =
      (if hit.level=1 ∧ m.prediction.enabled=false then
        ∑ i∈Finset.range hit.level,m.levelLatency instruction i
      else m.dueLatency instruction predicted hit) % 2^64 := by
  have hbelow : ((List.range hit.level).foldl
      (fun charged i => charged+slowest (m.path instruction i)) 0).toNat =
      (∑ i∈Finset.range hit.level,m.levelLatency instruction i) % 2^64 := by
    rw [charges_toNat fun i => slowest (m.path instruction i)]
    simp only [slowest_toNat]
    rfl
  obtain ⟨t,ht,hserves⟩:=hitInLevels_some h
  rw [chargedTlbLatency,dueLatency]
  by_cases hlevel : hit.level=1
  · cases henabled : m.prediction.enabled with
    | false =>
      rw [chargeHitLevel_unpredicted hlevel henabled,hbelow,if_pos ⟨hlevel,rfl⟩]
    | true =>
      have hpath : m.path instruction hit.level≠[] := by
        apply ne_nil_of_mem (a:=(t,hit.index))
        exact mem_filter.mpr ⟨mem_zipIdx_iff_getElem?.mpr ht,hserves⟩
      rw [chargeHitLevel_predicted hlevel henabled hpath,BitVec.toNat_add,hbelow,Nat.mod_add_mod,
        if_neg (by simp),if_pos ⟨hlevel,rfl⟩]
  · rw [path,chargeHitLevel_levelPath hlevel ht hserves,BitVec.toNat_add,hbelow,Nat.mod_add_mod,
      if_neg (fun hc => hlevel hc.1),if_neg (fun hc => hlevel hc.1),hitLatency,ht]
    rfl

/-- A hit is charged what it is due exactly when the sum fits into 64 bits and the hit is not on
the second level without prediction, unless the TLB there takes no time. -/
theorem hit_latency_iff (h : hitInLevels instruction address m.tlbs=some hit) (predicted : ℤ) :
    (m.chargedTlbLatency instruction predicted hit).toNat=m.dueLatency instruction predicted hit ↔
      (hit.level≠1 ∨ m.prediction.enabled=true ∨ m.hitLatency hit=0) ∧
        m.dueLatency instruction predicted hit<2^64 := by
  rw [chargedTlbLatency_toNat h]
  split_ifs with hcase
  · obtain ⟨hlevel,henabled⟩:=hcase
    have hdue : m.dueLatency instruction predicted hit =
        ∑ i∈Finset.range hit.level,m.levelLatency instruction i+m.hitLatency hit := by
      rw [dueLatency,henabled,if_neg (by simp)]
    have hmod := Nat.mod_le (∑ i∈Finset.range hit.level,m.levelLatency instruction i) (2^64)
    have hlt := Nat.mod_lt (∑ i∈Finset.range hit.level,m.levelLatency instruction i)
      (Nat.two_pow_pos 64)
    constructor
    · intro heq
      exact ⟨.inr (.inr (by omega)),by omega⟩
    · rintro ⟨hzero,hfits⟩
      have hzero : m.hitLatency hit=0 := by
        rcases hzero with hne | henabled' | hzero
        · exact absurd hlevel hne
        · rw [henabled] at henabled'
          cases henabled'
        · exact hzero
      rw [hdue,hzero,Nat.add_zero] at hfits ⊢
      exact Nat.mod_eq_of_lt hfits
  · have hor : hit.level≠1 ∨ m.prediction.enabled=true := by
      by_contra hnot
      push Not at hnot
      exact hcase ⟨hnot.1,Bool.eq_false_of_not_eq_true hnot.2⟩
    constructor
    · intro heq
      refine ⟨hor.imp_right .inl,?_⟩
      rw [← heq]
      exact Nat.mod_lt _ (Nat.two_pow_pos 64)
    · rintro ⟨-,hfits⟩
      exact Nat.mod_eq_of_lt hfits

/-- An empty data TLB of 1 ns before a unified one of 10 ns that has the entry of page 0. -/
def twoLevels (enabled : Bool) : TimedHierarchy Unit where
  tlbs := [
    [⟨⟨.data,1,[12],true,false,fun _ => 0,fun _ _ => none⟩,.ns 1⟩],
    [⟨⟨.unified,1,[12],true,false,fun _ => 0,fun _ _ => some ⟨0,12,7,()⟩⟩,.ns 10⟩]]
  prediction := ⟨enabled,.ns 4,.ns 10⟩

/-- The second level is charged 4 ns for a page size that was predicted. -/
theorem hit_latency_predicted : ∃hit,hitInLevels false 0 (twoLevels true).tlbs=some hit ∧
    hit.level=1 ∧ (twoLevels true).dueLatency false 12 hit=5000000 ∧
    ((twoLevels true).chargedTlbLatency false 12 hit).toNat=(twoLevels true).dueLatency false 12 hit := by
  have hhit : hitInLevels false 0 (twoLevels true).tlbs=some ⟨1,0,⟨0,12,7,()⟩⟩ := rfl
  have hdue : (twoLevels true).dueLatency false 12 ⟨1,0,⟨0,12,7,()⟩⟩=5000000 := by decide
  refine ⟨_,hhit,rfl,hdue,(hit_latency_iff hhit 12).mpr ⟨.inr (.inl rfl),?_⟩⟩
  rw [hdue]
  norm_num

/-- Without prediction the 10 ns of the second level are missing. -/
theorem hit_latency_missing : ∃hit,hitInLevels false 0 (twoLevels false).tlbs=some hit ∧
    ((twoLevels false).chargedTlbLatency false (-1) hit).toNat=1000000 ∧
    (twoLevels false).dueLatency false (-1) hit=11000000 := by
  exact ⟨⟨1,0,⟨0,12,7,()⟩⟩,rfl,by decide,by decide⟩

end TimedHierarchy

end Sniper.PageFaults
