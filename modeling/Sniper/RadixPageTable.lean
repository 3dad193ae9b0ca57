import Sniper.FallibleRuns
import Sniper.MachineValues

/-!
# The radix page table of `pagetable_radix.cc`

A null pointer read as a translation is an invalid translation; every other confusion of the two
stops the run. Walks are modelled without the restart after a fault. Counters are left out.
-/

namespace Sniper.RadixPageTable
open FallibleRuns

/-- The union of a `PTEntry`. -/
inductive PTData (F : Type) where
  | translation (valid : Bool) (ppn : ℕ)
  | nextLevel (frame : Option F)

structure PTEntry (F : Type) where
  isPte : Bool
  data : PTData F

def PTEntry.isValid {F : Type} (e : PTEntry F) : Bool :=
  match e.isPte,e.data with
  | true,.translation valid _ => valid
  | _,_ => false

inductive PTFrame where
  | mk (emulatedPpn : ℕ) (entries : ℕ → PTEntry PTFrame)

namespace PTFrame

def emulatedPpn : PTFrame → ℕ
  | mk ppn _ => ppn

def entries : PTFrame → ℕ → PTEntry PTFrame
  | mk _ es => es

def set (f : PTFrame) (offset : ℕ) (e : PTEntry PTFrame) : PTFrame :=
  mk f.emulatedPpn (Function.update f.entries offset e)

/-- A new frame: all entries null, marked as translations on the last level only. -/
def fresh (ppn : ℕ) (isPte : Bool) : PTFrame := mk ppn fun _ => ⟨isPte,.nextLevel none⟩

@[simp] theorem entries_set (f : PTFrame) (offset : ℕ) (e : PTEntry PTFrame) :
    (f.set offset e).entries=Function.update f.entries offset e := rfl

@[simp] theorem entries_fresh (ppn : ℕ) (isPte : Bool) (i : ℕ) :
    (fresh ppn isPte).entries i=⟨isPte,.nextLevel none⟩ := rfl

@[simp] theorem emulatedPpn_fresh (ppn : ℕ) (isPte : Bool) : (fresh ppn isPte).emulatedPpn=ppn := rfl

end PTFrame

structure PTWAccess where
  depth : ℕ
  physicalAddress : ℕ
  isPte : Bool

structure PTWResult where
  pageSize : ℕ
  accesses : List PTWAccess
  ppn : ℕ
  faultHappened : Bool
  requestedFrames : ℕ

structure PageTableRadix where
  levels : ℕ
  frameSize : ℕ
  pageSizeList : List ℕ
  root : PTFrame

namespace PageTableRadix

/-- The root is a frame of null pointers at the reserved page 0. -/
def new (levels frameSize : ℕ) (pageSizeList : List ℕ) : PageTableRadix :=
  ⟨levels,frameSize,pageSizeList,PTFrame.fresh 0 false⟩

/-- `(address >> (48 - 9 * (levels - level + 1))) & 0x1FF`, an index into a frame. -/
def offset (pt : PageTableRadix) (level address : ℕ) : Except Abort ℕ :=
  if 48<9*(pt.levels - level+1) then .error .shiftTooWide
  else
    let offset := address / 2^(48 - 9*(pt.levels - level+1)) % 512
    if offset<pt.frameSize then .ok offset else .error .outOfBounds

def walkFrom (pt : PageTableRadix) (address : ℕ) : ℕ → PTFrame → ℕ → List PTWAccess → Except Abort PTWResult
  | 0,_,_,visited => .ok ⟨0,visited,0,false,0⟩
  | level+1,frame,counter,visited => do
    let offset ← pt.offset (level+1) address
    let entry := frame.entries offset
    let visited := visited++[⟨counter,frame.emulatedPpn*4096+offset*8,entry.isValid⟩]
    match entry.isPte,entry.data with
    | true,.translation true ppn =>
      if ppn=invalidWord then .error .assertion
      else match pt.pageSizeList[level]? with
        | none => .error .outOfBounds
        | some size => .ok ⟨size,visited,ppn,false,0⟩
    | true,.translation false _ => .ok ⟨0,visited,0,true,level⟩
    | true,.nextLevel none => .ok ⟨0,visited,0,true,level⟩
    | true,.nextLevel (some _) => .error .pointerAsTranslation
    | false,.nextLevel none => .ok ⟨0,visited,0,true,level⟩
    | false,.nextLevel (some next) => walkFrom pt address level next (counter+1) visited
    | false,.translation _ _ => .error .translationFollowed

def initializeWalk (pt : PageTableRadix) (address : ℕ) : Except Abort PTWResult :=
  pt.walkFrom address pt.levels pt.root 0 []

/-- The level at which a page of the given size is entered. -/
def isLeaf (pageSize level : ℕ) : Bool := (pageSize == 21 && level == 2) || (pageSize == 12 && level == 1)

/-- The loop of `updatePageTableFrames` from a frame downwards. The count is that of the
frames taken from the list for absent levels. -/
def updateFrom (pt : PageTableRadix) (address ppn pageSize : ℕ) :
    ℕ → PTFrame → List ℕ → Except Abort (PTFrame × ℕ)
  | 0,frame,_ => .ok (frame,0)
  | level+1,frame,frames => do
    let offset ← pt.offset (level+1) address
    if isLeaf pageSize (level+1) then
      .ok (frame.set offset ⟨true,.translation true ppn⟩,0)
    else if level=0 then .ok (frame,0)
    else
      let entry := frame.entries offset
      match entry.data with
      | .translation _ _ => .error .translationFollowed
      | .nextLevel (some next) => do
        let (next,used) ← updateFrom pt address ppn pageSize level next frames
        .ok (frame.set offset ⟨entry.isPte,.nextLevel (some next)⟩,used)
      | .nextLevel none =>
        match frames with
        | [] => .error .assertion
        | emulatedPpn::frames => do
          let (next,used) ← updateFrom pt address ppn pageSize level
            (PTFrame.fresh emulatedPpn (level == 1)) frames
          .ok (frame.set offset ⟨entry.isPte,.nextLevel (some next)⟩,used+1)

def updatePageTableFrames (pt : PageTableRadix) (address ppn pageSize : ℕ) (frames : List ℕ) :
    Except Abort (ℕ × PageTableRadix) := do
  let (root,used) ← pt.updateFrom address ppn pageSize pt.levels pt.root frames
  .ok (used,{pt with root})

def deleteFrom (pt : PageTableRadix) (address : ℕ) : ℕ → PTFrame → Except Abort PTFrame
  | 0,frame => .ok frame
  | level+1,frame => do
    let offset ← pt.offset (level+1) address
    let entry := frame.entries offset
    if entry.isPte then .ok (frame.set offset ⟨true,.translation false invalidWord⟩)
    else if level=0 then .ok frame
    else match entry.data with
      | .translation _ _ => .error .translationFollowed
      | .nextLevel none => .error .nullDereference
      | .nextLevel (some next) => do
        let next ← deleteFrom pt address level next
        .ok (frame.set offset ⟨false,.nextLevel (some next)⟩)

def deletePage (pt : PageTableRadix) (address : ℕ) : Except Abort PageTableRadix := do
  let root ← pt.deleteFrom address pt.levels pt.root
  .ok {pt with root}

/-- An update enters its page here, runs out of levels, or goes on in the frame below. -/
theorem updateFrom_cases {pt : PageTableRadix} {address ppn pageSize level used : ℕ} {frame frame' : PTFrame}
    {frames : List ℕ} (he : pt.updateFrom address ppn pageSize (level+1) frame frames = .ok (frame',used)) :
    ∃offset,pt.offset (level+1) address = .ok offset ∧ (isLeaf pageSize (level+1)=true ∧ used=0 ∧
          frame'=frame.set offset ⟨true,.translation true ppn⟩ ∨
        isLeaf pageSize (level+1)=false ∧ level=0 ∧ used=0 ∧ frame'=frame ∨
        isLeaf pageSize (level+1)=false ∧ level≠0 ∧
          ∃next next' rest used',pt.updateFrom address ppn pageSize level next rest =
              .ok (next',used') ∧ frame'=frame.set offset
              ⟨(frame.entries offset).isPte,.nextLevel (some next')⟩ ∧
            ((frame.entries offset).data = .nextLevel (some next) ∧ frames=rest ∧ used=used' ∨
              (frame.entries offset).data = .nextLevel none ∧
                ∃emulatedPpn,frames=emulatedPpn::rest ∧ used=used'+1 ∧
                  next=PTFrame.fresh emulatedPpn (level == 1))) := by
  rw [updateFrom] at he
  obtain ⟨offset,ho,he⟩:=bind_ok he
  refine ⟨offset,ho,?_⟩
  cases hleaf : isLeaf pageSize (level+1) with
  | true =>
    rw [hleaf,if_pos rfl] at he
    cases he
    exact Or.inl ⟨rfl,rfl,rfl⟩
  | false =>
    rw [hleaf,if_neg (by decide)] at he
    by_cases hlevel : level=0
    · rw [if_pos hlevel] at he
      cases he
      exact Or.inr (Or.inl ⟨rfl,hlevel,rfl,rfl⟩)
    · rw [if_neg hlevel] at he
      refine Or.inr (Or.inr ⟨rfl,hlevel,?_⟩)
      cases hdata : (frame.entries offset).data with
      | translation valid ppn' => simp [hdata] at he
      | nextLevel child =>
        cases child with
        | some next =>
          simp only [hdata] at he
          obtain ⟨⟨next',used'⟩,hnext,he⟩:=bind_ok he
          cases he
          exact ⟨next,next',frames,used',hnext,rfl,Or.inl ⟨rfl,rfl,rfl⟩⟩
        | none =>
          cases frames with
          | nil => simp [hdata] at he
          | cons emulatedPpn rest =>
            simp only [hdata] at he
            obtain ⟨⟨next',used'⟩,hnext,he⟩:=bind_ok he
            cases he
            exact ⟨_,next',rest,used',hnext,rfl,Or.inr ⟨rfl,emulatedPpn,rfl,rfl,rfl⟩⟩

end PageTableRadix

end Sniper.RadixPageTable
