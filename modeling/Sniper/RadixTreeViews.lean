import Sniper.RadixPageTable
import Sniper.RadixDigits

/-!
# What a radix page table maps

The view of a frame keeps which address has which translation. `Shaped` says which entries can
occur at which height; its flag tells whether deleted translations may.
-/

namespace Sniper.RadixPageTable
open FallibleRuns RadixDigits Function

/-- The virtual page number, whose base-512 digits index the frames. -/
def vpn (address : ℕ) : ℕ := address / 2^12

def index (height address : ℕ) : ℕ := digit 512 height (vpn address)

/-- Bits of a page entered at the given height above the last level. -/
def sizeAt (height : ℕ) : ℕ := 12+9*height

/-- The shapes of entries at a height, with `S` for the frames below. -/
inductive EntryShaped (deleted : Bool) (S : PTFrame → Prop) (height : ℕ) :
    PTEntry PTFrame → Prop where
  | leaf (valid : Bool) (ppn : ℕ) (hheight : height≤1)
      (hdeleted : valid=false → deleted=true) :
      EntryShaped deleted S height ⟨true,.translation valid ppn⟩
  | blank (hheight : height=0) : EntryShaped deleted S height ⟨true,.nextLevel none⟩
  | absent (hheight : height≠0) : EntryShaped deleted S height ⟨false,.nextLevel none⟩
  | child (next : PTFrame) (hheight : height≠0) (hnext : S next) :
      EntryShaped deleted S height ⟨false,.nextLevel (some next)⟩

def Shaped (deleted : Bool) : ℕ → PTFrame → Prop
  | 0,_ => True
  | height+1,frame =>
    ∀i,EntryShaped deleted (Shaped deleted height) height (frame.entries i)

def view : ℕ → PTFrame → ℕ → Option (ℕ × ℕ)
  | 0,_,_ => none
  | height+1,frame,address =>
    match (frame.entries (index height address)).isPte,
      (frame.entries (index height address)).data with
    | true,.translation true ppn => some (ppn,sizeAt height)
    | false,.nextLevel (some next) => view height next address
    | _,_ => none

/-- What an address sees through an entry at the given height. -/
def entryView (height : ℕ) (e : PTEntry PTFrame) (address : ℕ) : Option (ℕ × ℕ) :=
  match e.isPte,e.data with
  | true,.translation true ppn => some (ppn,sizeAt height)
  | false,.nextLevel (some next) => view height next address
  | _,_ => none

theorem view_of_index (frame : PTFrame) (height address a : ℕ) (h : index height a=index height address) :
    view (height+1) frame a=entryView height (frame.entries (index height address)) a := by
  rw [view,h]
  rfl

def missing : ℕ → PTFrame → ℕ → ℕ
  | 0,_,_ => 0
  | height+1,frame,address =>
    match (frame.entries (index height address)).isPte,
      (frame.entries (index height address)).data with
    | false,.nextLevel (some next) => missing height next address
    | _,_ => height

/-- Frames that entering a page at height `k` takes; `none` if a translation is in the way. -/
def needed (k : ℕ) : ℕ → PTFrame → ℕ → Option ℕ
  | 0,_,_ => some 0
  | height+1,frame,address =>
    if height=k then some 0
    else match (frame.entries (index height address)).data with
      | .translation _ _ => none
      | .nextLevel none => some (height - k)
      | .nextLevel (some next) => needed k height next address

theorem shaped_fresh (deleted : Bool) (ppn height : ℕ) :
    Shaped deleted height (PTFrame.fresh ppn (height == 1)) := by
  cases height with
  | zero => trivial
  | succ height =>
    intro i
    rw [PTFrame.entries_fresh]
    cases height with
    | zero => exact .blank rfl
    | succ height => exact .absent (Nat.succ_ne_zero height)

@[simp] theorem view_fresh (ppn height address : ℕ) (isPte : Bool) :
    view height (PTFrame.fresh ppn isPte) address=none := by
  cases height with
  | zero => rfl
  | succ height =>
    rw [view,PTFrame.entries_fresh]
    cases isPte <;> rfl

variable {height k address i ppn : ℕ} {deleted : Bool} {frame : PTFrame} {pt : PageTableRadix}
  {frames : List ℕ}

theorem needed_fresh (hk : k<height) (ppn address : ℕ) (isPte : Bool) :
    needed k height (PTFrame.fresh ppn isPte) address=some (height - 1 - k) := by
  cases height with
  | zero => omega
  | succ height =>
    rw [needed,PTFrame.entries_fresh]
    by_cases h : height=k
    · simp [h]
    · simp [h]

theorem Shaped.set {e : PTEntry PTFrame} (hs : Shaped deleted (height+1) frame)
    (he : EntryShaped deleted (Shaped deleted height) height e) (i : ℕ) :
    Shaped deleted (height+1) (frame.set i e) := by
  intro j
  rw [PTFrame.entries_set]
  by_cases hj : j=i
  · rw [hj,update_self]
    exact he
  · rw [update_of_ne hj]
    exact hs j

theorem view_set_of_ne (frame : PTFrame) (e : PTEntry PTFrame) (hne : index height address≠i) :
    view (height+1) (frame.set i e) address=view (height+1) frame address := by
  rw [view,view,PTFrame.entries_set,update_of_ne hne]

theorem view_set_child (frame next : PTFrame) (heq : index height address=i) :
    view (height+1) (frame.set i ⟨false,.nextLevel (some next)⟩) address = view height next address := by
  rw [view,PTFrame.entries_set,heq,update_self]

/-- The shipped configuration: four levels, full frames, pages of 4KB and 2MB. -/
structure Standard (pt : PageTableRadix) : Prop where
  levels : pt.levels=4
  frameSize : 512≤pt.frameSize
  small : pt.pageSizeList[0]?=some 12
  large : pt.pageSizeList[1]?=some 21

theorem Standard.setRoot (h : Standard pt) (root : PTFrame) :
    Standard {pt with root} :=
  ⟨h.levels,h.frameSize,h.small,h.large⟩

theorem Standard.offset_eq (h : Standard pt) (hh : height<4) (address : ℕ) :
    pt.offset (height+1) address = .ok (index height address) := by
  have hshift : 48 - 9*(pt.levels - (height+1)+1)=12+9*height := by
    rw [h.levels]
    omega
  have hindex : address / 2^(12+9*height) % 512=index height address := by
    rw [index,digit,vpn,Nat.div_div_eq_div_mul,pow_add,pow_mul]
    rfl
  have hwide : ¬ 48<9*(pt.levels - (height+1)+1) := by
    rw [h.levels]
    omega
  have hbound : index height address<pt.frameSize := lt_of_lt_of_le (Nat.mod_lt _ (by decide)) h.frameSize
  rw [PageTableRadix.offset,if_neg hwide,hshift,hindex]
  exact if_pos hbound

theorem Standard.sizeAt_eq (h : Standard pt) (hh : height≤1) :
    pt.pageSizeList[height]?=some (sizeAt height) := by
  rcases Nat.le_one_iff_eq_zero_or_eq_one.mp hh with rfl | rfl
  · exact h.small
  · exact h.large

/-- A result that reports the given translation, or a fault for `none`. -/
def Reports (r : PTWResult) : Option (ℕ × ℕ) → Prop
  | some (ppn,size) => r.faultHappened=false ∧ r.ppn=ppn ∧ r.pageSize=size
  | none => r.faultHappened=true ∧ r.ppn=0 ∧ r.pageSize=0

/-- A walk that finds the page number `-1` stops at an assertion; any other reports what it
finds. -/
def Answers (w : Except Abort PTWResult) (o : Option (ℕ × ℕ)) : Prop :=
  (∃size,o=some (invalidWord,size) ∧ w = .error .assertion) ∨
    ((∀size,o≠some (invalidWord,size)) ∧ ∃r,w = .ok r ∧ Reports r o)

theorem Answers.ok {w : Except Abort PTWResult} {o : Option (ℕ × ℕ)} {r : PTWResult} (h : Answers w o)
    (hw : w = .ok r) : Reports r o ∧ ∀size,o≠some (invalidWord,size) := by
  rcases h with ⟨size,-,he⟩ | ⟨hvalid,r',hr',hreports⟩
  · exact nomatch hw.symm.trans he
  · cases hw.symm.trans hr'
    exact ⟨hreports,hvalid⟩

theorem answers_fault {r : PTWResult} (h : Reports r none) : Answers (.ok r) none :=
  Or.inr ⟨fun _ hf => (nomatch hf),r,rfl,h⟩

theorem walkFrom_spec (h : Standard pt) (hh : height≤4) (hpos : 0<height) (hs : Shaped deleted height frame)
    (address counter : ℕ) (visited : List PTWAccess) :
    Answers (pt.walkFrom address height frame counter visited) (view height frame address) ∧
      ∀r,pt.walkFrom address height frame counter visited = .ok r → r.faultHappened=true →
        r.requestedFrames=missing height frame address := by
  induction height generalizing frame counter visited with
  | zero => omega
  | succ height ih =>
    have hentry := hs (index height address)
    rw [PageTableRadix.walkFrom,h.offset_eq (by omega),ok_bind,view,missing]
    generalize frame.entries (index height address)=e at hentry ⊢
    cases hentry with
    | leaf valid ppn hheight hdeleted =>
      cases valid with
      | false =>
        refine ⟨answers_fault ⟨rfl,rfl,rfl⟩,fun r hr _ => ?_⟩
        cases hr
        rfl
      | true =>
        simp only [h.sizeAt_eq hheight]
        by_cases hppn : ppn=invalidWord
        · rw [if_pos hppn,hppn]
          exact ⟨Or.inl ⟨_,rfl,rfl⟩,fun r hr => nomatch hr⟩
        · rw [if_neg hppn]
          refine ⟨Or.inr ⟨fun size hsize => ?_,_,rfl,rfl,rfl,rfl⟩,fun r hr hf => ?_⟩
          · cases hsize
            exact hppn rfl
          · cases hr
            cases hf
    | blank hheight =>
      refine ⟨answers_fault ⟨rfl,rfl,rfl⟩,fun r hr _ => ?_⟩
      cases hr
      rfl
    | absent hheight =>
      refine ⟨answers_fault ⟨rfl,rfl,rfl⟩,fun r hr _ => ?_⟩
      cases hr
      rfl
    | child next hheight hnext => exact ih (by omega) (Nat.pos_of_ne_zero hheight) hnext _ _

/-- In a table without deletions, a fault means that the path ends in a null pointer: no
translation is in the way, and the frames asked for suffice. -/
theorem needed_of_view_none (hs : Shaped false height frame) (hv : view height frame address=none)
    (hk : k<height) : ∃n,needed k height frame address=some n ∧ n ≤ missing height frame address := by
  induction height generalizing frame with
  | zero => omega
  | succ height ih =>
    have hentry := hs (index height address)
    rw [view] at hv
    rw [needed,missing]
    by_cases hleaf : height=k
    · rw [if_pos hleaf]
      exact ⟨0,rfl,Nat.zero_le _⟩
    · rw [if_neg hleaf]
      generalize frame.entries (index height address)=e at hentry hv ⊢
      cases hentry with
      | leaf valid ppn hheight hdeleted =>
        cases valid with
        | false => exact nomatch hdeleted rfl
        | true => cases hv
      | blank hheight => omega
      | absent hheight => exact ⟨height - k,rfl,Nat.sub_le _ _⟩
      | child next hheight hnext => exact ih hnext hv (by omega)

theorem isLeaf_sizeAt (hk : k≤1) (height : ℕ) :
    PageTableRadix.isLeaf (sizeAt k) (height+1)=decide (height=k) := by
  rcases Nat.le_one_iff_eq_zero_or_eq_one.mp hk with rfl | rfl
  · simp [PageTableRadix.isLeaf,sizeAt,beq_eq_decide]
  · simp [PageTableRadix.isLeaf,sizeAt,beq_eq_decide]

/-- The view after entering a page at height `k`: new on that page, unchanged elsewhere. -/
structure Entered (k height address ppn : ℕ) (before after : PTFrame) : Prop where
  inside : ∀a,Agree 512 k height (vpn a) (vpn address) →
    view height after a=some (ppn,sizeAt k)
  outside : ∀a,¬ Agree 512 k height (vpn a) (vpn address) →
    view height after a=view height before a

theorem entered_leaf (k address ppn : ℕ) (frame : PTFrame) : Entered k (k+1) address ppn frame
      (frame.set (index k address) ⟨true,.translation true ppn⟩) := by
  constructor
  · intro a ha
    have heq : index k a=index k address := ((agree_succ le_rfl).mp ha).1
    rw [view,PTFrame.entries_set,heq,update_self]
  · intro a ha
    refine view_set_of_ne frame _ fun hindex => ha ?_
    exact (agree_succ le_rfl).mpr ⟨hindex,agree_self⟩

theorem Entered.child {next next' : PTFrame} (hk : k≤height) (h : Entered k height address ppn next next')
    (hbefore : ∀a,index height a=index height
    address → view (height+1) frame a=view height next a) : Entered k (height+1) address ppn frame
      (frame.set (index height address) ⟨false,.nextLevel (some next')⟩) := by
  constructor
  · intro a ha
    obtain ⟨hdigit,hrest⟩:=(agree_succ hk).mp ha
    have hindex : index height a=index height address := hdigit
    rw [view_set_child frame next' hindex]
    exact h.inside a hrest
  · intro a ha
    by_cases hindex : index height a=index height address
    · rw [view_set_child frame next' hindex,hbefore a hindex]
      exact h.outside a fun hrest => ha ((agree_succ hk).mpr ⟨hindex,hrest⟩)
    · exact view_set_of_ne frame _ hindex

theorem updateFrom_spec (h : Standard pt) {n : ℕ} (hk : k≤1) (hkh : k<height) (hh : height≤4)
    (hs : Shaped deleted height frame) (ppn : ℕ) (hn : needed k height frame address=some n)
    (hlen : n≤frames.length) :
    ∃frame',pt.updateFrom address ppn (sizeAt k) height frame frames = .ok (frame',n) ∧
      Shaped deleted height frame' ∧ Entered k height address ppn frame frame' := by
  induction height generalizing frame frames n with
  | zero => omega
  | succ height ih =>
    rw [PageTableRadix.updateFrom,h.offset_eq (by omega),ok_bind,isLeaf_sizeAt hk]
    rw [needed] at hn
    by_cases hleaf : height=k
    · subst hleaf
      rw [if_pos rfl] at hn
      cases hn
      refine ⟨_,if_pos (by simp),?_,entered_leaf height address ppn frame⟩
      exact hs.set (.leaf true ppn hk Bool.noConfusion) _
    · rw [if_neg hleaf] at hn
      rw [if_neg (by simpa using hleaf),if_neg (by omega)]
      have hentry := hs (index height address)
      have hbefore := view_of_index frame height address
      generalize frame.entries (index height address)=e at hentry hn hbefore ⊢
      cases hentry with
      | leaf valid ppn' hheight hdeleted => cases hn
      | blank hheight => omega
      | absent hheight =>
        cases hn
        cases frames with
        | nil =>
          rw [List.length_nil] at hlen
          omega
        | cons emulatedPpn frames =>
          have hneed := needed_fresh (show k<height by omega) emulatedPpn address (height == 1)
          have hlen' : height - 1 - k≤frames.length := by
            rw [List.length_cons] at hlen
            omega
          obtain ⟨next',hupdate,hshape,hentered⟩:=ih (by omega) (by omega)
            (shaped_fresh deleted emulatedPpn height) hneed hlen'
          refine ⟨_,?_,hs.set (.child next' hheight hshape) _,hentered.child (by omega) fun a ha => ?_⟩
          · simp only [hupdate,ok_bind]
            rw [show height - 1 - k+1=height - k by omega]
          · rw [hbefore a ha,view_fresh]
            rfl
      | child next hheight hnext =>
        obtain ⟨next',hupdate,hshape,hentered⟩:=ih (by omega) (by omega) hnext hn hlen
        refine ⟨_,?_,hs.set (.child next' hheight hshape) _,hentered.child (by omega) hbefore⟩
        simp only [hupdate,ok_bind]

theorem needed_of_updateFrom (h : Standard pt) {used : ℕ} {frame' : PTFrame} (hk : k≤1) (hkh : k<height)
    (hh : height≤4) (he : pt.updateFrom address ppn (sizeAt k) height frame frames = .ok (frame',used)) :
    ∃n,needed k height frame address=some n ∧ n≤frames.length := by
  induction height generalizing frame frame' frames used with
  | zero => omega
  | succ height ih =>
    obtain ⟨offset,ho,hcases⟩:=PageTableRadix.updateFrom_cases he
    cases ho.symm.trans (h.offset_eq (by omega) address)
    rw [needed]
    by_cases hleaf : height=k
    · rw [if_pos hleaf]
      exact ⟨0,rfl,Nat.zero_le _⟩
    · rw [if_neg hleaf]
      rw [isLeaf_sizeAt hk,decide_eq_false hleaf] at hcases
      rcases hcases with ⟨hf,-⟩ | ⟨-,hzero,-⟩ | ⟨-,-,next,next',rest,used',hnext,-,hdata⟩
      · cases hf
      · omega
      · obtain ⟨n,hn,hle⟩:=ih (by omega) (by omega) hnext
        rcases hdata with ⟨hdata,rfl,-⟩ | ⟨hdata,emulatedPpn,rfl,-,rfl⟩
        · rw [hdata]
          exact ⟨n,hn,hle⟩
        · rw [needed_fresh (by omega)] at hn
          cases hn
          rw [hdata,List.length_cons]
          exact ⟨height - k,rfl,by omega⟩

end Sniper.RadixPageTable
