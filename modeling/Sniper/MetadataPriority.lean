import Sniper.LruReplacement

/-!
# Replacement that prefers page-table blocks or data

Arms M0 to M5 of `CacheSetMPLRU` spare the blocks of page tables and D0 to D5 spare data. The base
class makes its search with one attempt here, so that no controller is asked.
-/

namespace Sniper.WayGating
open Coherence FallibleRuns RecencyRanks

inductive MetadataPriorityMode where
  | always
  | adaptive
  | disabled
  deriving DecidableEq,Repr

/-- `CacheSetInfoMPLRU`, one for all sets of a cache. -/
structure MplruInfo where
  mode : MetadataPriorityMode
  associativity : ℕ

/-- `metaLevel` is what an initialized controller answers in adaptive mode. -/
def MplruInfo.getPolicyId (info : MplruInfo) (metaLevel : Option ℤ) : ℕ :=
  match info.mode,metaLevel with
  | .disabled,_ => 0
  | .always,_ => 3
  | .adaptive,some level => (min (max level 0) 11).toNat
  | .adaptive,none => 0

namespace PolicySet

variable (s : PolicySet LruState)

def isPageTableBlock (i : ℕ) : Bool := (s.infos i).blockType.isMetadata

variable (metadata : Bool)

/-- A valid block of the kind that is looked for, at least at the rank of the threshold. -/
def mplruTakes (threshold : UInt8) (i : ℕ) : Bool :=
  (s.infos i).isValid && s.isPageTableBlock i == metadata &&
    decide (threshold ≤ s.state.lruBits i) && s.isValidReplacement i

/-- The search that the four search functions share; the associativity stands for no block. -/
def findLruBlock (threshold : UInt8) : ℕ :=
  (maxScan s.state.lruBits (s.mplruTakes metadata threshold) (List.range s.associativity)
    (s.associativity,0)).1

variable (percentile : ℕ)

/-- The rank at which the lower `percentile` percent of the ranks begin. -/
def thresholdBits : UInt8 := UInt8.ofNat (s.associativity*(100 - percentile) % 2^32 / 100)

def findLruDataBlock : ℕ := s.findLruBlock false 0

def findLruMetadataBlock : ℕ := s.findLruBlock true 0

def findLruDataBlockInPercentile : ℕ := s.findLruBlock false (s.thresholdBits percentile)

def findLruMetadataBlockInPercentile : ℕ := s.findLruBlock true (s.thresholdBits percentile)

def takeOr (found : ℕ) (otherwise : Except Abort (ℕ × LruState)) : Except Abort (ℕ × LruState) :=
  if found<s.associativity then .ok (found,s.state.moveToMru s.associativity found) else otherwise

def standardLru : Except Abort (ℕ × LruState) := (lruPolicy 1).getReplacementIndex s none

def countBlocks : ℕ :=
  (List.range s.associativity).countP fun i =>
    (s.infos i).isValid && s.isPageTableBlock i == metadata

def getReplacementIndexWithReservation (reservedWays : ℕ) : Except Abort (ℕ × LruState) :=
  let dataFirst := s.takeOr s.findLruDataBlock (s.takeOr s.findLruMetadataBlock s.standardLru)
  if s.countBlocks true < reservedWays then s.takeOr s.findLruDataBlock dataFirst else dataFirst

def getReplacementIndexWithDataReservation (reservedWays : ℕ) : Except Abort (ℕ × LruState) :=
  let metadataFirst := s.takeOr s.findLruMetadataBlock (s.takeOr s.findLruDataBlock s.standardLru)
  if s.countBlocks false < reservedWays then s.takeOr s.findLruMetadataBlock metadataFirst
  else metadataFirst

/-- What an arm does in a set without an unused way. -/
def armIndex (info : MplruInfo) (policyId : ℕ) : Except Abort (ℕ × LruState) :=
  match policyId with
  | 1 => s.takeOr (s.findLruDataBlockInPercentile 25) s.standardLru
  | 2 => s.takeOr (s.findLruDataBlockInPercentile 50) s.standardLru
  | 3 => s.takeOr s.findLruDataBlock (s.takeOr s.findLruMetadataBlock s.standardLru)
  | 4 => s.getReplacementIndexWithReservation (info.associativity / 4)
  | 5 => s.getReplacementIndexWithReservation (info.associativity / 2)
  | 7 => s.takeOr (s.findLruMetadataBlockInPercentile 25) s.standardLru
  | 8 => s.takeOr (s.findLruMetadataBlockInPercentile 50) s.standardLru
  | 9 => s.takeOr s.findLruMetadataBlock (s.takeOr s.findLruDataBlock s.standardLru)
  | 10 => s.getReplacementIndexWithDataReservation (info.associativity / 4)
  | 11 => s.getReplacementIndexWithDataReservation (info.associativity / 2)
  | _ => s.standardLru

end PolicySet

/-- `CacheSetMPLRU`. The first loop looks at all ways, also at those that are switched off. -/
def mplruPolicy (info : MplruInfo) : SetPolicy LruState (Option ℤ) where
  getReplacementIndex s metaLevel :=
    match (List.range s.associativity).find? fun i => !(s.infos i).isValid with
    | some i => .ok (i,s.state.moveToMru s.associativity i)
    | none => s.armIndex info (info.getPolicyId metaLevel)
  updateReplacementIndex := (lruPolicy 1).updateReplacementIndex

/-- The kind of block that an arm always spares: page tables under M3 to M5, data under D3
to D5. -/
def sparedKind (policyId : ℕ) : Option Bool :=
  if policyId=3 ∨ policyId=4 ∨ policyId=5 then some true
  else if policyId=9 ∨ policyId=10 ∨ policyId=11 then some false
  else none

namespace PolicySet

section

variable (s : PolicySet LruState)

/-- Way `i` is switched on, it does not wait for an upgrade while another way may be replaced, and
with all ways in use it is not of the kind to spare while a block of the other kind may be
replaced. -/
structure Respects (policyId i : ℕ) : Prop where
  active : i<s.activeWays
  noUpgrade : (∃j,s.isValidReplacement j=true) → (s.infos i).cstate ≠ .sharedUpgrading
  spares : (∀j<s.associativity,(s.infos j).isValid=true) → ∀metadata,
    sparedKind policyId=some metadata →
    (∃j,s.isValidReplacement j=true ∧ s.isPageTableBlock j = !metadata) →
    s.isPageTableBlock i = !metadata

/-- A block of the other kind may be replaced and is not the one used last; or only such blocks may
be replaced that were used last, and way 0 is of the other kind. -/
def SparesByRank (metadata : Bool) : Prop :=
  (∃j,s.isValidReplacement j=true ∧ s.isPageTableBlock j=(!metadata) ∧
      s.state.lruBits j≠0) ∨
    (∀j,s.isValidReplacement j=true → s.state.lruBits j=0) ∧ s.isPageTableBlock 0 = !metadata

/-- An active way is unused; or all ways are used and the ranks give every search something to
find. -/
def Protects (policyId : ℕ) : Prop :=
  (∃i<s.activeWays,(s.infos i).isValid=false) ∨
    (∀i<s.associativity,(s.infos i).isValid=true) ∧
    ((∃j,s.isValidReplacement j=true) →
      (∃j,s.isValidReplacement j=true ∧ s.state.lruBits j≠0) ∨
        s.isValidReplacement 0=true) ∧
    ∀metadata,sparedKind policyId=some metadata →
      (∃j,s.isValidReplacement j=true ∧ s.isPageTableBlock j = !metadata) →
      s.SparesByRank metadata

end

variable {s : PolicySet LruState} {n : ℕ}

theorem mplruTakes_iff {metadata : Bool} {i : ℕ} (hvalid : (s.infos i).isValid=true) :
    s.mplruTakes metadata 0 i=true ↔ s.isPageTableBlock i=metadata ∧ s.isValidReplacement i=true := by
  simp [mplruTakes,hvalid]

section

variable (s)

theorem findLruBlock_cases (metadata : Bool) (threshold : UInt8) :
    (s.findLruBlock metadata threshold=s.associativity ∧
      ∀j<s.associativity,s.mplruTakes metadata threshold j=true → s.state.lruBits j=0) ∨
    (s.mplruTakes metadata threshold (s.findLruBlock metadata threshold)=true ∧
      s.state.lruBits (s.findLruBlock metadata threshold)≠0) := by
  rw [findLruBlock]
  rcases maxScan_cases (fun a b : UInt8 => UInt8.lt_iff_toNat_lt) s.state.lruBits
      (s.mplruTakes metadata threshold) (List.range s.associativity) (s.associativity,0)
    with ⟨heq,hall⟩ | ⟨i,-,htakes,hlt,heq,-⟩
  · left
    rw [heq]
    refine ⟨rfl,fun j hj htakes => UInt8.toNat_inj.mp ?_⟩
    exact Nat.le_zero.mp (hall j (List.mem_range.mpr hj) htakes)
  · right
    rw [heq]
    refine ⟨htakes,?_⟩
    intro hzero
    rw [hzero] at hlt
    exact lt_irrefl _ hlt

/-- Way `i` may be replaced and is not the one used last; or there is no such way and it is
way 0. -/
def ByRank (i : ℕ) : Prop :=
  (s.isValidReplacement i=true ∧ s.state.lruBits i≠0) ∨
    i=0 ∧ ∀j,s.isValidReplacement j=true → s.state.lruBits j=0

/-- As `ByRank`, with the blocks of one kind first. -/
def ByKind (metadata : Bool) (i : ℕ) : Prop :=
  s.ByRank i ∧ (s.isValidReplacement i=true → s.state.lruBits i≠0 →
    s.isPageTableBlock i≠metadata →
    ∀j,s.isValidReplacement j=true → s.isPageTableBlock j=metadata → s.state.lruBits j=0)

end

/-- A search ends with a way of which `Q` holds. -/
def Picks (x : Except Abort (ℕ × LruState)) (Q : ℕ → Prop) : Prop := ∃i st,x = .ok (i,st) ∧ Q i

theorem Picks.mono {x : Except Abort (ℕ × LruState)} {Q R : ℕ → Prop} (h : Picks x Q) (hQR : ∀i,Q i → R i) :
    Picks x R := by
  obtain ⟨i,st,heq,hi⟩:=h
  exact ⟨i,st,heq,hQR i hi⟩

theorem takeOr_picks {found : ℕ} {otherwise : Except Abort (ℕ × LruState)} {Q : ℕ → Prop}
    (hfound : found<s.associativity → Q found) (hnext : s.associativity≤found → Picks otherwise Q) :
    Picks (s.takeOr found otherwise) Q := by
  rw [takeOr]
  split_ifs with hlt
  · exact ⟨found,_,rfl,hfound hlt⟩
  · exact hnext (not_lt.mp hlt)

section Full

variable (htidy : s.Tidy n) (hn : 0<n) (hvalid : ∀i<s.associativity,(s.infos i).isValid=true)
include htidy hn hvalid

theorem standardLru_picks : Picks s.standardLru s.ByRank := by
  have hpos : 0<s.associativity := by
    rw [htidy.associativity_eq]
    exact hn
  have hle : s.activeWays ≤ s.associativity := by
    rw [htidy.associativity_eq]
    exact htidy.active_le
  have hfull := firstInvalid_eq_none fun i hi => hvalid i (hi.trans_le hle)
  refine ⟨_,_,lruPolicy_full hpos hfull none,?_⟩
  rcases s.blocks.lruScan_cases s.state.lruBits with ⟨heq,hzero⟩ | ⟨-,hv,hbits,-⟩
  · refine Or.inr ⟨heq,fun j hj => hzero j ?_ hj⟩
    exact (isValidReplacement_iff.mp hj).1.trans_le hle
  · exact Or.inl ⟨hv,hbits⟩

theorem percentile_picks (metadata : Bool) (threshold : UInt8) :
    Picks (s.takeOr (s.findLruBlock metadata threshold) s.standardLru) s.ByRank := by
  apply takeOr_picks
  · intro hlt
    rcases s.findLruBlock_cases metadata threshold with ⟨heq,-⟩ | ⟨htakes,hbits⟩
    · exact absurd heq hlt.ne
    · rw [mplruTakes,Bool.and_eq_true] at htakes
      exact Or.inl ⟨htakes.2,hbits⟩
  · exact fun _ => standardLru_picks htidy hn hvalid

theorem kindFirst_picks (metadata : Bool) : Picks (s.takeOr (s.findLruBlock metadata 0)
      (s.takeOr (s.findLruBlock (!metadata) 0) s.standardLru)) (s.ByKind metadata) := by
  have hfound : ∀kind,s.findLruBlock kind 0<s.associativity →
      s.isPageTableBlock (s.findLruBlock kind 0)=kind ∧ s.ByRank (s.findLruBlock kind 0) := by
    intro kind hlt
    rcases s.findLruBlock_cases kind 0 with ⟨heq,-⟩ | ⟨htakes,hbits⟩
    · exact absurd heq hlt.ne
    · obtain ⟨hkind,hv⟩:=(mplruTakes_iff (hvalid _ hlt)).mp htakes
      exact ⟨hkind,Or.inl ⟨hv,hbits⟩⟩
  apply takeOr_picks
  · intro hlt
    obtain ⟨hkind,hrank⟩:=hfound metadata hlt
    exact ⟨hrank,fun _ _ hne => absurd hkind hne⟩
  · intro hle
    -- no block of the first kind may be replaced, but for the one used last
    have hnone : ∀j,s.isValidReplacement j=true → s.isPageTableBlock j=metadata →
        s.state.lruBits j=0 := by
      intro j hj hkind
      have hlt : ∀k,s.isValidReplacement k=true → k<s.associativity := by
        intro k hk
        rw [htidy.associativity_eq]
        exact htidy.lt hk
      rcases s.findLruBlock_cases metadata 0 with ⟨-,hzero⟩ | ⟨htakes,-⟩
      · exact hzero j (hlt j hj) ((mplruTakes_iff (hvalid j (hlt j hj))).mpr ⟨hkind,hj⟩)
      · rw [mplruTakes,Bool.and_eq_true] at htakes
        exact absurd (hlt _ htakes.2) (not_lt.mpr hle)
    apply takeOr_picks
    · exact fun hlt => ⟨(hfound _ hlt).2,fun _ _ _ => hnone⟩
    · exact fun _ => (standardLru_picks htidy hn hvalid).mono fun i hi => ⟨hi,fun _ _ _ => hnone⟩

theorem reservation_picks (metadata : Bool) (p : Prop) [Decidable p] :
    Picks (if p then s.takeOr (s.findLruBlock metadata 0) (s.takeOr (s.findLruBlock metadata 0)
        (s.takeOr (s.findLruBlock (!metadata) 0) s.standardLru))
      else s.takeOr (s.findLruBlock metadata 0)
        (s.takeOr (s.findLruBlock (!metadata) 0) s.standardLru)) (s.ByKind metadata) := by
  have hfirst := kindFirst_picks htidy hn hvalid metadata
  split_ifs
  · apply takeOr_picks
    · intro hlt
      obtain ⟨i,st,heq,hi⟩:=hfirst
      rw [takeOr,if_pos hlt] at heq
      cases heq
      exact hi
    · exact fun _ => hfirst
  · exact hfirst

theorem armIndex_picks (info : MplruInfo) (policyId : ℕ) : Picks (s.armIndex info policyId)
    fun i => s.ByRank i ∧ ∀metadata,sparedKind policyId=some metadata → s.ByKind (!metadata) i := by
  have hspare : ∀ {x : Except Abort (ℕ × LruState)} {metadata : Bool},
      sparedKind policyId=some metadata → Picks x (s.ByKind (!metadata)) → Picks x
        fun i => s.ByRank i ∧ ∀kind,sparedKind policyId=some kind → s.ByKind (!kind) i := by
    intro x metadata hkind hx
    refine hx.mono fun i hi => ⟨hi.1,fun kind heq => ?_⟩
    rw [hkind] at heq
    cases heq
    exact hi
  have hplain : ∀ {x : Except Abort (ℕ × LruState)},sparedKind policyId=none →
      Picks x s.ByRank → Picks x
        fun i => s.ByRank i ∧ ∀kind,sparedKind policyId=some kind → s.ByKind (!kind) i := by
    intro x hnone hx
    refine hx.mono fun i hi => ⟨hi,fun kind heq => ?_⟩
    rw [hnone] at heq
    cases heq
  unfold armIndex
  split
  · exact hplain rfl (percentile_picks htidy hn hvalid _ _)
  · exact hplain rfl (percentile_picks htidy hn hvalid _ _)
  · exact hspare rfl (kindFirst_picks htidy hn hvalid false)
  · exact hspare rfl (reservation_picks htidy hn hvalid false _)
  · exact hspare rfl (reservation_picks htidy hn hvalid false _)
  · exact hplain rfl (percentile_picks htidy hn hvalid _ _)
  · exact hplain rfl (percentile_picks htidy hn hvalid _ _)
  · exact hspare rfl (kindFirst_picks htidy hn hvalid true)
  · exact hspare rfl (reservation_picks htidy hn hvalid true _)
  · exact hspare rfl (reservation_picks htidy hn hvalid true _)
  · refine hplain ?_ (standardLru_picks htidy hn hvalid)
    simp_all [sparedKind]

end Full

theorem respects_iff (htidy : s.Tidy n) (hn : 0<n) (hvalid : ∀i<s.associativity,(s.infos i).isValid=true)
    {policyId i : ℕ} (hrank : s.ByRank i)
    (hkind : ∀metadata,sparedKind policyId=some metadata → s.ByKind (!metadata) i) :
    s.Respects policyId i ↔ s.Protects policyId := by
  have hused : ¬ ∃i<s.activeWays,(s.infos i).isValid=false := by
    apply not_unused
    apply firstInvalid_eq_none
    intro i hi
    rw [htidy.associativity_eq] at hvalid
    exact hvalid i (hi.trans_le htidy.active_le)
  have hactive : i<s.activeWays := by
    rcases hrank with ⟨hv,-⟩ | ⟨rfl,-⟩
    · exact (isValidReplacement_iff.mp hv).1
    · exact htidy.active_pos hn
  rw [Protects,or_iff_right hused,and_iff_right hvalid]
  constructor
  · intro h
    refine ⟨fun hsome => ?_,fun metadata hspare hother => ?_⟩
    · rcases hrank with hfound | ⟨rfl,-⟩
      · exact Or.inl ⟨i,hfound⟩
      · exact Or.inr (isValidReplacement_iff.mpr ⟨hactive,h.noUpgrade hsome⟩)
    · have hpt := h.spares hvalid metadata hspare hother
      rcases hrank with ⟨hv,hbits⟩ | ⟨rfl,hzero⟩
      · exact Or.inl ⟨i,hv,hpt,hbits⟩
      · exact Or.inr ⟨hzero,hpt⟩
  · rintro ⟨hsome,hspares⟩
    refine ⟨hactive,fun hex => ?_,fun _ metadata hspare hother => ?_⟩
    · rcases hrank with ⟨hv,-⟩ | ⟨rfl,hzero⟩
      · exact (isValidReplacement_iff.mp hv).2
      · rcases hsome hex with ⟨j,hj,hbits⟩ | hv
        · exact absurd (hzero j hj) hbits
        · exact (isValidReplacement_iff.mp hv).2
    · have hfirst := (hkind metadata hspare).2
      rcases hspares metadata hspare hother with ⟨j,hj,hpt,hbits⟩ | ⟨hzero,hpt⟩
      · rcases hrank with ⟨hv,hne⟩ | ⟨-,hzero⟩
        · by_contra hother'
          exact hbits (hfirst hv hne hother' j hj hpt)
        · exact absurd (hzero j hj) hbits
      · rcases hrank with ⟨hv,hne⟩ | ⟨rfl,-⟩
        · exact absurd (hzero i hv) hne
        · exact hpt

theorem respects_unused (htidy : s.Tidy n) {policyId i : ℕ}
    (hi : (List.range s.associativity).find? (fun j => !(s.infos j).isValid)=some i) :
    s.Respects policyId i ↔ s.Protects policyId := by
  obtain ⟨hunused,hmem,hlow⟩:=List.find?_range_eq_some.mp hi
  rw [List.mem_range] at hmem
  rw [Bool.not_eq_true'] at hunused
  have hnot : ¬ ∀j<s.associativity,(s.infos j).isValid=true := by
    intro hvalid
    rw [hvalid i hmem] at hunused
    cases hunused
  rw [Protects,or_iff_left (fun h => hnot h.1)]
  constructor
  · exact fun h => ⟨i,h.active,hunused⟩
  · rintro ⟨j,hj,hempty⟩
    have hle : i≤j := by
      by_contra hlt
      have hused := hlow j (not_le.mp hlt)
      rw [hempty] at hused
      cases hused
    exact ⟨hle.trans_lt hj,fun _ => htidy.unused i hunused,fun hvalid => absurd hvalid hnot⟩

end PolicySet

/-- In every reachable set, under every arm, the victim is switched on, does not wait for an upgrade
while another way may be replaced, and is not of the kind to spare while a block of the other kind
may be replaced, exactly when `Protects` holds. -/
theorem mplru_victim_iff (n : ℕ) (hn : 0<n) (info : MplruInfo) (calls : List (SetCall (Option ℤ)))
    (s : PolicySet LruState) (hs : run (mplruPolicy info).step (.new n (.new n)) calls = .ok s)
    (metaLevel : Option ℤ) : (∃i st,(mplruPolicy info).getReplacementIndex s metaLevel = .ok (i,st) ∧
        s.Respects (info.getPolicyId metaLevel) i) ↔ s.Protects (info.getPolicyId metaLevel) := by
  have htidy := SetPolicy.run_tidy hs
  simp only [mplruPolicy]
  cases hfind : (List.range s.associativity).find? fun i => !(s.infos i).isValid with
  | some i =>
    rw [← PolicySet.respects_unused htidy hfind]
    constructor
    · rintro ⟨j,st,heq,hj⟩
      cases heq
      exact hj
    · exact fun hi => ⟨i,_,rfl,hi⟩
  | none =>
    have hvalid : ∀i<s.associativity,(s.infos i).isValid=true := by
      intro i hi
      simpa using List.find?_eq_none.mp hfind i (List.mem_range.mpr hi)
    obtain ⟨i,st,heq,hrank,hkind⟩:=PolicySet.armIndex_picks htidy hn hvalid info (info.getPolicyId metaLevel)
    rw [← PolicySet.respects_iff htidy hn hvalid hrank hkind]
    dsimp only
    rw [heq]
    constructor
    · rintro ⟨j,st',heq',hj⟩
      cases heq'
      exact hj
    · exact fun hi => ⟨i,st,rfl,hi⟩

/-- Three blocks fill a set of three ways; the data block in way 0 was used first. -/
theorem mplru_victim_of_three : ∃s,run (mplruPolicy ⟨.always,3⟩).step (.new 3 (.new 3))
      [.insert 10 .data false none,.insert 11 .pageTableData false none,.insert 12 .data false none] = .ok s ∧
    ∃i st,(mplruPolicy ⟨.always,3⟩).getReplacementIndex s none = .ok (i,st) ∧ s.Respects 3 i := by
  refine exists_ok (P:=fun s => s.associativity=3 ∧ (∀i<3,(s.infos i).isValid=true) ∧
    s.isValidReplacement 0=true ∧ s.isPageTableBlock 0=false ∧ s.state.lruBits 0≠0) (by decide +kernel) ?_
  rintro s hs ⟨hthree,hvalid,hv,hpt,hbits⟩
  refine (mplru_victim_iff 3 (by decide) ⟨.always,3⟩ _ s hs none).mpr
    (Or.inr ⟨hthree ▸ hvalid,fun _ => Or.inr hv,fun metadata hspare _ => ?_⟩)
  cases hspare
  exact Or.inl ⟨0,hv,hpt,hbits⟩

/-- With way 1 switched off, the second block goes to way 1. With a page table in way 0 and the data
used last in way 1, arm M3 evicts the page table although the data may be replaced. -/
theorem mplru_victim_fails : (∃s st,run (mplruPolicy ⟨.always,2⟩).step (.new 2 (.new 2))
        [.setActiveWays 1,.insert 10 .data false none] = .ok s ∧
      (mplruPolicy ⟨.always,2⟩).getReplacementIndex s none = .ok (1,st) ∧ s.activeWays=1) ∧
    ∃s st,run (mplruPolicy ⟨.always,2⟩).step (.new 2 (.new 2))
        [.insert 10 .pageTableData false none,.insert 11 .data false none] = .ok s ∧
      (∀i<2,(s.infos i).isValid=true) ∧ (mplruPolicy ⟨.always,2⟩).getReplacementIndex s none = .ok (0,st) ∧
      s.isPageTableBlock 0=true ∧ s.isPageTableBlock 1=false ∧ s.isValidReplacement 1=true := by
  simp only [exists_and_left]
  decide +kernel

end Sniper.WayGating
