import Sniper.FallibleRuns
import Sniper.MachineValues

/-!
# The branch target buffer

`pentium_m_branch_target_buffer.h`, whose number of entries is changed at run time. Index and
tag are cut out of the address for 512 entries whatever the size is.
-/

namespace Sniper.BranchPrediction
open FallibleRuns List

/-- `IP_TO_INDEX`. -/
def indexOf (ip : BitVec 64) : ℕ := (ip >>> 4 &&& 0x1ff).toNat

/-- `IP_TO_TAGOFF`. -/
def tagOffsetOf (ip : BitVec 64) : BitVec 32 := (ip &&& 0x3fe00f).truncate 32

/-- The vectors of the ways, all of size `numEntries`. -/
structure BranchTargetBuffer where
  numWays : ℕ
  numEntries : ℕ
  tagOffset : ℕ → ℕ → BitVec 32
  plru : ℕ → ℕ → BitVec 64
  lruUseCount : BitVec 64

namespace BranchTargetBuffer

/-- `initialize`. -/
def new (numWays numEntries : ℕ) : BranchTargetBuffer := ⟨numWays,numEntries,fun _ _ => 0,fun _ _ => 0,0⟩

variable (b : BranchTargetBuffer)

def resize (newEntries : ℕ) : BranchTargetBuffer :=
  {b with numEntries:=newEntries,tagOffset:=fun _ _ => 0,plru:=fun _ _ => 0}

/-- The first way whose entry has the tag. -/
def findWay (ip : BitVec 64) : Option ℕ :=
  (range b.numWays).find? fun w => b.tagOffset w (indexOf ip)=tagOffsetOf ip

/-- Without a way, nothing is read. -/
def lookup (ip : BitVec 64) : Except Abort Bool :=
  if b.numWays=0 ∨ indexOf ip<b.numEntries then .ok (b.findWay ip).isSome
  else .error .outOfBounds

def lruWay (index : ℕ) : ℕ :=
  (range b.numWays).foldl (fun lru w => if b.plru w index<b.plru lru index then w else lru) 0

/-- A way that is found has the tag already. Without a way, the first one is written all the
same. -/
def update (ip : BitVec 64) : Except Abort BranchTargetBuffer :=
  if 0<b.numWays ∧ indexOf ip<b.numEntries then
    let w := (b.findWay ip).getD (b.lruWay (indexOf ip))
    .ok { b with
      tagOffset := fun v i => if v=w ∧ i=indexOf ip then tagOffsetOf ip else b.tagOffset v i
      plru := fun v i => if v=w ∧ i=indexOf ip then b.lruUseCount else b.plru v i
      lruUseCount := b.lruUseCount+1 }
  else .error .outOfBounds

end BranchTargetBuffer

inductive BtbCall where
  | lookup (ip : BitVec 64)
  | update (ip : BitVec 64)
  | resize (newEntries : ℕ)

/-- The buffer with the addresses that were passed to `update` since it was built anew. -/
structure BtbHistory where
  btb : BranchTargetBuffer
  updated : List (BitVec 64)

namespace BtbHistory

def new (numWays numEntries : ℕ) : BtbHistory := ⟨.new numWays numEntries,[]⟩

section

variable (s : BtbHistory)

def step : BtbCall → Except Abort BtbHistory
  | .lookup ip => do
    let _ ← s.btb.lookup ip
    .ok s
  | .update ip => do
    let b ← s.btb.update ip
    .ok ⟨b,ip::s.updated⟩
  | .resize newEntries => .ok ⟨s.btb.resize newEntries,[]⟩

/-- The address was passed to `update`, or another one that looks the same. -/
def Known (ip : BitVec 64) : Prop := ∃ip'∈s.updated,indexOf ip'=indexOf ip ∧ tagOffsetOf ip'=tagOffsetOf ip

/-- The call stays within the entries, and a hit is for an address that is known. -/
def Sound : BtbCall → Prop
  | .lookup ip => ∃hit,s.btb.lookup ip = .ok hit ∧ (hit=true → s.Known ip)
  | .update ip => ∃b,s.btb.update ip = .ok b
  | .resize _ => True

instance (ip : BitVec 64) : Decidable (s.Known ip) := List.decidableBEx _ s.updated

/-- The index is below the number of entries, and the address of a lookup has a tag or an
offset or is known. -/
def Admitted : BtbCall → Prop
  | .lookup ip => s.btb.numWays=0 ∨ indexOf ip<s.btb.numEntries ∧ (tagOffsetOf ip≠0 ∨ s.Known ip)
  | .update ip => 0<s.btb.numWays ∧ indexOf ip<s.btb.numEntries
  | .resize _ => True

/-- What is in an entry was put there by an update, unless it is zero. -/
def Tagged : Prop := ∀w i,s.btb.tagOffset w i=0 ∨
  ∃ip∈s.updated,indexOf ip=i ∧ tagOffsetOf ip=s.btb.tagOffset w i

instance (call : BtbCall) : Decidable (s.Admitted call) :=
  match call with
  | .lookup _ => inferInstanceAs (Decidable (_ ∨ _ ∧ _))
  | .update _ => inferInstanceAs (Decidable (_ ∧ _))
  | .resize _ => .isTrue trivial

end

variable {s s' : BtbHistory} {call : BtbCall}

theorem Tagged.sound (h : s.Tagged) (ha : s.Admitted call) : s.Sound call := by
  cases call with
  | lookup ip =>
    refine ⟨_,if_pos (ha.imp_right And.left),fun hhit => ?_⟩
    obtain ⟨w,hw⟩ := Option.isSome_iff_exists.mp hhit
    have hway : w<s.btb.numWays := mem_range.mp (mem_of_find?_eq_some hw)
    rcases ha with hnone | ⟨-,hzero | hknown⟩
    · omega
    · have htag : s.btb.tagOffset w (indexOf ip)=tagOffsetOf ip := by simpa using find?_some hw
      have hcases := h w (indexOf ip)
      rw [htag] at hcases
      exact hcases.resolve_left hzero
    · exact hknown
  | update ip => exact ⟨_,if_pos ha⟩
  | resize n => trivial

theorem Tagged.step (h : s.Tagged) (hok : s.step call = .ok s') : s'.Tagged := by
  cases call with
  | lookup ip =>
    obtain ⟨-,-,hok⟩:=bind_ok hok
    cases hok
    exact h
  | update ip =>
    obtain ⟨b,hb,hok⟩:=bind_ok hok
    cases hok
    unfold BranchTargetBuffer.update at hb
    split_ifs at hb
    cases hb
    intro w i
    dsimp only
    split_ifs with hwritten
    · exact .inr ⟨ip,mem_cons_self,hwritten.2.symm,rfl⟩
    · exact (h w i).imp_right fun hknown =>
        hknown.imp fun ip' hip' => ⟨mem_cons_of_mem _ hip'.1,hip'.2⟩
  | resize n =>
    cases hok
    exact fun w i => .inl rfl

/-- As long as the index of every address is below the number of entries and an address that is
looked up with tag and offset zero is known, the run stays within the entries and the calls are
sound. -/
theorem btb_sound_of_admitted (numWays numEntries : ℕ) (calls : List BtbCall)
    (h : Along step Admitted (new numWays numEntries) calls) :
    (∃s,run step (new numWays numEntries) calls = .ok s) ∧ Along step Sound (new numWays numEntries) calls := by
  have hnew : (new numWays numEntries).Tagged := fun w i => .inl rfl
  have htotal : ∀s call,Tagged s → Admitted s call → ∃s',step s call = .ok s' ∧ s'.Tagged := by
    intro s call hs ha
    obtain ⟨s',hs'⟩ : ∃s',step s call = .ok s' := by
      have hsound := hs.sound ha
      cases call with
      | lookup ip =>
        obtain ⟨hit,hlookup,-⟩:=hsound
        exact ⟨s,by rw [step,hlookup]; rfl⟩
      | update ip =>
        obtain ⟨b,hupdate⟩:=hsound
        exact ⟨_,by rw [step,hupdate]; rfl⟩
      | resize n => exact ⟨_,rfl⟩
    exact ⟨s',hs',hs.step hs'⟩
  obtain ⟨s,hrun,-⟩:=run_total htotal hnew h
  exact ⟨⟨s,hrun⟩,h.of_invariant (fun s call hs ha => hs.sound ha) (fun s call s' hs _ => hs.step) hnew⟩

/-- An address that is looked up, put in and found, and address zero once it is known. -/
theorem btb_finds_updated :
    (∃s,run step (new 4 512) [.lookup 1,.update 1,.lookup 1,.update 0,.lookup 0] = .ok s) ∧
      Along step Sound (new 4 512) [.lookup 1,.update 1,.lookup 1,.update 0,.lookup 0] :=
  btb_sound_of_admitted 4 512 _ (by decide)

/-- An empty buffer hits for address zero, and after a change to 256 entries the lookup of 4096
reads entry 256. -/
theorem btb_hits_when_empty : (new 4 512).btb.lookup 0 = .ok true ∧ ¬ (new 4 512).Known 0 ∧
    run step (new 4 512) [.resize 256,.lookup 4096] = .error .outOfBounds :=
  ⟨by rfl,by simp [Known,new],by rfl⟩

end BtbHistory

end Sniper.BranchPrediction
