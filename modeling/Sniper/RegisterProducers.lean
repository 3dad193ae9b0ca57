import Sniper.FallibleRuns
import Sniper.MachineValues

/-!
# Register dependencies

An entry that has left the window is cleared under the image of its register in `map_register`.
-/

namespace Sniper.Microops

open FallibleRuns Function List

structure Decoder where
  lastReg : ℕ
  mapRegister : ℕ → ℕ

structure MicroOp where
  sequenceNumber : ℕ
  sourceRegisters : List ℕ
  destinationRegisters : List ℕ

/-- A micro-op with the lowest sequence number in the window when it is processed. -/
structure Arrival extends MicroOp where
  lowestValidSequenceNumber : ℕ

/-- `none` stands for `INVALID_SEQNR`. -/
abbrev Producers := ℕ → Option ℕ

variable (dec : Decoder)

def addDependency (dependencies : List ℕ) (sequenceNumber : ℕ) : List ℕ :=
  if sequenceNumber∈dependencies then dependencies else dependencies++[sequenceNumber]

/-- The body of the loop over the source registers. -/
def addSource (lowest : ℕ) (s : List ℕ × Producers) (source : ℕ) : Except Abort (List ℕ × Producers) :=
  if dec.lastReg ≤ source then .error .assertion
  else (s.2 source).elim (.ok s) fun producer =>
    if lowest≤producer then .ok (addDependency s.1 producer,s.2)
    else if dec.lastReg≤dec.mapRegister source then .error .outOfBounds
    else .ok (s.1,Function.update s.2 (dec.mapRegister source) none)

def addDestination (sequenceNumber : ℕ) (producers : Producers) (destination : ℕ) : Except Abort Producers :=
  if dec.lastReg≤destination then .error .assertion
  else .ok (Function.update producers destination (some sequenceNumber))

/-- The dependencies of the micro-op, and the table after it. -/
def setDependencies (producers : Producers) (a : Arrival) : Except Abort (List ℕ × Producers) := do
  let (dependencies,producers) ←
    a.sourceRegisters.foldlM (addSource dec a.lowestValidSequenceNumber) ([],producers)
  let producers ← a.destinationRegisters.foldlM (addDestination dec a.sequenceNumber) producers
  return (dependencies,producers)

def step (producers : Producers) (a : Arrival) : Except Abort Producers :=
  Prod.snd <$> setDependencies dec producers a

def cleared : Producers := fun _ => none

/-- The registers exist, and micro-ops come in the order of their sequence numbers, each with a
window that begins no earlier than the one before. -/
structure Stream (arrivals : List Arrival) : Prop where
  registers : ∀a∈arrivals,∀r∈a.sourceRegisters++a.destinationRegisters,r<dec.lastReg
  ordered : arrivals.Pairwise fun a b => a.sequenceNumber<b.sequenceNumber ∧
    a.lowestValidSequenceNumber≤b.lowestValidSequenceNumber

/-- The most recent of the earlier micro-ops in the window that has written a register with the
image of the source. -/
def producerOf (earlier : List Arrival) (lowest source : ℕ) : Option ℕ :=
  ((earlier.filter fun a => lowest≤a.sequenceNumber ∧
    ∃r∈a.destinationRegisters,dec.mapRegister r=dec.mapRegister source).getLast?).map
      (·.sequenceNumber)

/-- Each micro-op of each stream depends on the producers of its source registers and on no other
micro-op. -/
def DependsOnProducers : Prop :=
  ∀earlier a,Stream dec (earlier++[a]) →
    ∃producers,run (step dec) cleared earlier = .ok producers ∧
    ∃dependencies producers',setDependencies dec producers a = .ok (dependencies,producers') ∧
      ∀p,p∈dependencies ↔ ∃source∈a.sourceRegisters,
        producerOf dec earlier a.lowestValidSequenceNumber source=some p

section Identity

variable {dec}

theorem foldlM_addDestination (sequenceNumber : ℕ) {destinations : List ℕ}
    (h : ∀r∈destinations,r<dec.lastReg) (producers : Producers) :
    ∃producers',
      destinations.foldlM (addDestination dec sequenceNumber) producers = .ok producers' ∧
      ∀r,producers' r=if r∈destinations then some sequenceNumber else producers r := by
  induction destinations generalizing producers with
  | nil => exact ⟨producers,rfl,fun r => rfl⟩
  | cons destination destinations ih =>
    obtain ⟨hfirst,hrest⟩:=forall_mem_cons.mp h
    obtain ⟨producers',hrun,hlook⟩:=ih hrest (update producers destination (some sequenceNumber))
    refine ⟨producers',?_,fun r => ?_⟩
    · rw [foldlM_cons,addDestination,if_neg (Nat.not_le.mpr hfirst),ok_bind,hrun]
    · rw [hlook]
      by_cases hr : r=destination
      · simp [hr]
      · simp [hr]

variable (dec) in
/-- From the window that begins at `lowest` on, the table has the producers. -/
def Current (lowest : ℕ) (earlier : List Arrival) (producers : Producers) : Prop :=
  ∀r<dec.lastReg,∀l ≥ lowest,∀p,
    producerOf dec earlier l r=some p ↔ producers r=some p ∧ l≤p

variable {lowest : ℕ} {earlier : List Arrival} {producers : Producers}

theorem addSource_current (dependencies : List ℕ) {source : ℕ} (hsource : source<dec.lastReg)
    (hmap : dec.mapRegister source=source) (h : Current dec lowest earlier producers) :
    ∃dependencies' producers',
      addSource dec lowest (dependencies,producers) source = .ok (dependencies',producers') ∧
        Current dec lowest earlier producers' ∧ ∀p,p∈dependencies' ↔
          p∈dependencies ∨ producerOf dec earlier lowest source=some p := by
  simp only [h source hsource lowest le_rfl]
  rw [addSource,if_neg (Nat.not_le.mpr hsource)]
  dsimp only
  cases hp : producers source with
  | none => exact ⟨dependencies,producers,rfl,h,by simp⟩
  | some producer =>
    rw [Option.elim_some]
    by_cases hle : lowest≤producer
    · refine ⟨_,producers,if_pos hle,h,fun p => ?_⟩
      rw [addDependency]
      split_ifs with hmem
      · exact ⟨.inl,fun hor => hor.elim id fun heq => Option.some.inj heq.1 ▸ hmem⟩
      · rw [mem_append,mem_singleton,Option.some_inj]
        exact or_congr_right ⟨fun heq => ⟨heq.symm,heq ▸ hle⟩,fun heq => heq.1.symm⟩
    · rw [if_neg hle,hmap,if_neg (Nat.not_le.mpr hsource)]
      refine ⟨_,_,rfl,fun r hr l hl p => ?_,fun p => ?_⟩
      · rw [h r hr l hl]
        by_cases hrs : r=source
        · rw [hrs,update_self,hp,Option.some_inj]
          simp only [reduceCtorEq,false_and,iff_false]
          rintro ⟨rfl,hlp⟩
          exact hle (hl.trans hlp)
        · rw [update_of_ne hrs]
      · rw [Option.some_inj,or_iff_left]
        rintro ⟨rfl,hlp⟩
        exact hle hlp

theorem producerOf_concat (a : Arrival) (l r : ℕ) :
    producerOf dec (earlier++[a]) l r =
      if l≤a.sequenceNumber ∧
          ∃d∈a.destinationRegisters,dec.mapRegister d=dec.mapRegister r then
        some a.sequenceNumber
      else producerOf dec earlier l r := by
  rw [producerOf,filter_append]
  split_ifs with h
  · rw [filter_cons_of_pos (by simpa using h),filter_nil,List.getLast?_concat]
    rfl
  · rw [filter_cons_of_neg (by simpa using h),filter_nil,append_nil]
    rfl

theorem producerOf_ge {l r p : ℕ} (h : producerOf dec earlier l r=some p) :
    l≤p ∧ ∃a∈earlier,a.sequenceNumber=p := by
  obtain ⟨a,ha,rfl⟩:=Option.map_eq_some_iff.mp h
  obtain ⟨hmem,hin⟩:=mem_filter.mp (mem_of_getLast? ha)
  exact ⟨(of_decide_eq_true hin).1,a,hmem,rfl⟩

variable (hmap : ∀r<dec.lastReg,dec.mapRegister r=r)
include hmap

theorem foldlM_addSource (dependencies : List ℕ) {sources : List ℕ} (hsources : ∀r∈sources,r<dec.lastReg)
    (h : Current dec lowest earlier producers) :
    ∃dependencies' producers',sources.foldlM (addSource dec lowest) (dependencies,producers) =
        .ok (dependencies',producers') ∧ Current dec lowest earlier producers' ∧
      ∀p,p∈dependencies' ↔ p∈dependencies ∨ ∃source∈sources,producerOf dec earlier lowest source=some p := by
  induction sources generalizing dependencies producers with
  | nil => exact ⟨dependencies,producers,rfl,h,by simp⟩
  | cons source sources ih =>
    obtain ⟨hsource,hrest⟩:=forall_mem_cons.mp hsources
    obtain ⟨mid,producers',hstep,hcur,hmid⟩:=addSource_current dependencies hsource (hmap source hsource) h
    obtain ⟨dependencies',producers'',hrun,hcur',hdep⟩:=ih mid hrest hcur
    refine ⟨dependencies',producers'',?_,hcur',fun p => ?_⟩
    · rw [foldlM_cons,hstep,ok_bind,hrun]
    · rw [hdep,hmid,exists_mem_cons_iff,or_assoc]

theorem setDependencies_current {a : Arrival} (h : Stream dec (earlier++[a]))
    (hcur : Current dec a.lowestValidSequenceNumber earlier producers) :
    ∃dependencies producers',setDependencies dec producers a = .ok (dependencies,producers') ∧
      Current dec a.lowestValidSequenceNumber (earlier++[a]) producers' ∧
      ∀p,p∈dependencies ↔ ∃source∈a.sourceRegisters,
        producerOf dec earlier a.lowestValidSequenceNumber source=some p := by
  have hregs := h.registers a (mem_append_right _ (mem_singleton_self a))
  have hbefore := fun b hb =>
    (pairwise_append.mp h.ordered).2.2 b hb a (mem_singleton_self a)
  obtain ⟨dependencies,mid,hsources,hmid,hdep⟩:=foldlM_addSource hmap []
    (fun r hr => hregs r (mem_append_left _ hr)) hcur
  obtain ⟨producers',hdest,hlook⟩:=foldlM_addDestination a.sequenceNumber
    (fun r hr => hregs r (mem_append_right _ hr)) mid
  refine ⟨dependencies,producers',?_,fun r hr l hl p => ?_,by simpa using hdep⟩
  · rw [setDependencies,hsources,ok_bind]
    dsimp only
    rw [hdest]
    rfl
  · have himage : (∃d∈a.destinationRegisters,dec.mapRegister d=dec.mapRegister r) ↔
        r∈a.destinationRegisters := by
      constructor
      · rintro ⟨d,hd,heq⟩
        rw [hmap d (hregs d (mem_append_right _ hd)),hmap r hr] at heq
        exact heq ▸ hd
      · exact fun hmem => ⟨r,hmem,rfl⟩
    simp only [producerOf_concat,himage,hlook]
    by_cases hmem : r∈a.destinationRegisters
    · rw [if_pos hmem,Option.some_inj]
      by_cases hle : l≤a.sequenceNumber
      · rw [if_pos ⟨hle,hmem⟩,Option.some_inj]
        exact ⟨fun heq => ⟨heq,heq ▸ hle⟩,fun heq => heq.1⟩
      · -- a window that begins behind the micro-op has no earlier one either
        rw [if_neg fun hand => hle hand.1]
        constructor
        · intro hp
          obtain ⟨hlp,b,hb,rfl⟩:=producerOf_ge hp
          exact absurd (hlp.trans (hbefore b hb).1.le) hle
        · rintro ⟨rfl,hlp⟩
          exact absurd hlp hle
    · rw [if_neg hmem,if_neg fun hand => hmem hand.2]
      exact hmid r hr l hl p

/-- Without aliases every stream is processed, and the table has the producers. -/
theorem run_current {a : Arrival} (h : Stream dec (earlier++[a])) :
    ∃producers,run (step dec) cleared earlier = .ok producers ∧
      Current dec a.lowestValidSequenceNumber earlier producers := by
  induction earlier using List.reverseRecOn generalizing a with
  | nil => exact ⟨cleared,rfl,fun r hr l hl p => by simp [producerOf,cleared]⟩
  | append_singleton earlier b ih =>
    have hpre : Stream dec (earlier++[b]) :=
      ⟨fun c hc => h.registers c (mem_append_left _ hc),(pairwise_append.mp h.ordered).1⟩
    obtain ⟨producers,hrun,hcur⟩:=ih hpre
    obtain ⟨dependencies,producers',hset,hcur',-⟩:=setDependencies_current hmap hpre hcur
    refine ⟨producers',?_,fun r hr l hl => hcur' r hr l (le_trans ?_ hl)⟩
    · rw [run_append,hrun,ok_bind,run_cons,step,hset]
      rfl
    · exact ((pairwise_append.mp h.ordered).2.2 b
        (mem_append_right _ (mem_singleton_self b)) a (mem_singleton_self a)).2

end Identity

theorem dependsOnProducers_bound (h : DependsOnProducers dec) {r : ℕ} (hr : r<dec.lastReg) :
    dec.mapRegister r<dec.lastReg := by
  obtain ⟨producers,hrun,dependencies,producers',hset,-⟩:=
    h [⟨⟨0,[],[r]⟩,0⟩] ⟨⟨1,[r],[]⟩,1⟩ ⟨by simp [hr],by simp⟩
  by_contra hbound
  have hwrite : run (step dec) cleared [⟨⟨0,[],[r]⟩,0⟩] =
      .ok (update cleared r (some 0)) := by
    simp [run,step,setDependencies,addDestination,Nat.not_le.mpr hr]
  rw [hwrite] at hrun
  cases hrun
  simp [setDependencies,addSource,Nat.not_le.mpr hr,Nat.not_lt.mp hbound] at hset

/-- Two registers are written one after the other. -/
def twoWrites (r r' : ℕ) : List Arrival := [⟨⟨0,[],[r]⟩,0⟩,⟨⟨1,[],[r']⟩,0⟩]

/-- The dependencies of the micro-ops of every stream are the most recent writers in the window of
registers with the same image, exactly when no register is mapped to another one. -/
theorem dependencies_exact_iff : DependsOnProducers dec ↔ ∀r<dec.lastReg,dec.mapRegister r=r := by
  constructor
  · intro h r hr
    by_contra hne
    have hbound := dependsOnProducers_bound dec h hr
    have hwrites : run (step dec) cleared (twoWrites r (dec.mapRegister r)) =
        .ok (update (update cleared r (some 0)) (dec.mapRegister r) (some 1)) := by
      simp [twoWrites,run,step,setDependencies,addDestination,Nat.not_le.mpr hr,Nat.not_le.mpr hbound]
    -- when `r` has left the window, a read of it clears the entry of its image
    have hread : setDependencies dec
        (update (update cleared r (some 0)) (dec.mapRegister r) (some 1))
        ⟨⟨2,[r],[]⟩,1⟩ = .ok ([],update (update cleared r (some 0))
          (dec.mapRegister r) none) := by
      simp [setDependencies,addSource,Ne.symm hne,Nat.not_le.mpr hr,Nat.not_le.mpr hbound]
    by_cases himage : dec.mapRegister (dec.mapRegister r)=dec.mapRegister r
    · obtain ⟨producers,hrun,dependencies,producers',hset,hdep⟩:=
        h (twoWrites r (dec.mapRegister r)) ⟨⟨2,[r],[]⟩,1⟩
          ⟨by simp [twoWrites,hr,hbound],by simp [twoWrites]⟩
      rw [hwrites] at hrun
      cases hrun
      rw [hread] at hset
      cases hset
      simpa using (hdep 1).mpr ⟨r,by simp,by simp [twoWrites,producerOf,himage]⟩
    · obtain ⟨producers,hrun,dependencies,producers',hset,hdep⟩:=
        h (twoWrites r (dec.mapRegister r)++[⟨⟨2,[r],[]⟩,1⟩])
          ⟨⟨3,[dec.mapRegister r],[]⟩,1⟩
          ⟨by simp [twoWrites,hr,hbound],by simp [twoWrites]⟩
      rw [run_append,hwrites,ok_bind,run_cons,step,hread] at hrun
      cases hrun
      simp only [setDependencies,addSource,foldlM_cons,foldlM_nil,update_self,Option.elim_none,
        if_neg (Nat.not_le.mpr hbound)] at hset
      cases hset
      simpa using (hdep 1).mpr ⟨dec.mapRegister r,by simp,by simp [twoWrites,producerOf]⟩
  · intro hmap earlier a h
    obtain ⟨producers,hrun,hcur⟩:=run_current hmap h
    obtain ⟨dependencies,producers',hset,-,hdep⟩:=setDependencies_current hmap h hcur
    exact ⟨producers,hrun,dependencies,producers',hset,hdep⟩

/-- `ARMDecoder::map_register` and the number of registers, with the register numbers of the
disassembler: `X29` is 1, `D0` 40, `H0` 72, `Q0` 104, `S0` 136, `W0` 168, `X0` 199 and `V0` 228. -/
def armDecoder : Decoder where
  lastReg := 260
  mapRegister reg :=
    if 199 ≤ reg ∧ reg≤227 then reg - 31
    else if 1 ≤ reg ∧ reg≤2 then reg+196
    else if 228 ≤ reg ∧ reg≤259 then reg - 220
    else if 136 ≤ reg ∧ reg≤167 then reg - 128
    else if 104 ≤ reg ∧ reg≤135 then reg - 96
    else if 72 ≤ reg ∧ reg≤103 then reg - 64
    else if 40 ≤ reg ∧ reg≤71 then reg - 32
    else reg

/-- A read of `X0` does not depend on the write of `W0` before it. -/
theorem alias_dependency_missed : armDecoder.mapRegister 199=armDecoder.mapRegister 168 ∧
    producerOf armDecoder [⟨⟨0,[],[168]⟩,0⟩] 0 199=some 0 ∧
    ∃producers,run (step armDecoder) cleared [⟨⟨0,[],[168]⟩,0⟩] = .ok producers ∧ ∃producers',
        setDependencies armDecoder producers ⟨⟨1,[199],[]⟩,0⟩ = .ok ([],producers') := by
  decide +kernel

end Sniper.Microops
