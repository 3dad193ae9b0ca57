import Sniper.SiftRecords

/-!
# SIFT writer and reader in lock step

What the reader returns was sent for the instruction but may be older than it: a page is sent once.
-/

namespace Sniper.Sift
open ByteParsers FallibleRuns Reader Function List

/-- The size of an `Output` record, with the file descriptor in front of the data, is one that
the reader accepts. -/
def WriterCall.OutputFits : WriterCall → Prop
  | .output _ _ size => 0<size.toNat ∧ 1+size.toNat<2^32
  | _ => True

/-- Some byte of the instruction lies on the page at `p`. -/
def InstructionCall.onPage (c : InstructionCall) (p : ℕ) : Bool :=
  (List.range c.size.toNat).any fun i => pageOf (c.addr.toNat+i) == p

section Senders

variable (o : WriterOptions)

/-- What the writer remembers the code of byte `i` of an instruction under: the address of the
instruction, or the page of the byte. -/
def keyOf (addr i : ℕ) : ℕ := if o.requiresIcachePerInsn then addr else pageOf (addr+i)

def needs (p : ℕ) (c : InstructionCall) : Bool :=
  if o.requiresIcachePerInsn then c.addr.toNat == p else c.onPage p

section

variable (cs : List InstructionCall)

/-- The instruction with which the code under the key `p` is sent. -/
def sender (p : ℕ) : Option InstructionCall := cs.find? (needs o p)

def sentByte (addr i : ℕ) : UInt8 := ((sender o cs (keyOf o addr i)).map fun c => c.code (addr+i)).getD 0

def sentCode (addr size : ℕ) : List UInt8 := (List.range size).map (sentByte o cs addr)

end

variable {o} {cs : List InstructionCall} {c : InstructionCall} {i p : ℕ}

theorem needs_keyOf (hi : i<c.size.toNat) : needs o (keyOf o c.addr.toNat i) c=true := by
  unfold needs keyOf
  split_ifs
  · exact beq_self_eq_true _
  · exact any_eq_true.mpr ⟨i,mem_range.mpr hi,beq_self_eq_true _⟩

theorem sender_isSome (hc : c∈cs) (hi : i<c.size.toNat) : (sender o cs (keyOf o c.addr.toNat i)).isSome :=
  List.find?_isSome.mpr ⟨c,hc,needs_keyOf hi⟩

theorem sender_append_of_isSome (h : (sender o cs p).isSome) (ds : List InstructionCall) :
    sender o (cs++ds) p=sender o cs p := by
  rw [sender,List.find?_append,← sender,Option.or_of_isSome h]

theorem sender_concat : sender o (cs++[c]) p =
    (sender o cs p).or (if needs o p c then some c else none) := by
  rw [sender,List.find?_append,← sender,List.find?_singleton]

theorem sentCode_append (hc : c∈cs) (ds : List InstructionCall) :
    sentCode o (cs++ds) c.addr.toNat c.size.toNat=sentCode o cs c.addr.toNat c.size.toNat :=
  map_congr_left fun i hi => by
    rw [sentByte,sender_append_of_isSome (sender_isSome hc (mem_range.mp hi)),sentByte]

theorem onPage_iff (h : Encodable c) : c.onPage p=true ↔ pageOf c.addr.toNat≤p ∧
    p≤pageOf (c.addr.toNat+c.size.toNat - 1) ∧ p % pageSize=0 := by
  have hpos := h.size_pos
  have hle := h.size_le
  simp only [InstructionCall.onPage,any_eq_true,mem_range,beq_iff_eq]
  unfold pageOf pageSize
  constructor
  · rintro ⟨i,hi,rfl⟩
    omega
  · rintro ⟨hlow,hhigh,halign⟩
    by_cases hfirst : c.addr.toNat / 4096*4096=p
    · exact ⟨0,hpos,hfirst⟩
    · exact ⟨c.size.toNat - 1,by omega,by omega⟩

end Senders

/-- The page is one of those from `base` to `last`. -/
def InPages (base last p : ℕ) : Prop := base≤p ∧ p≤last ∧ p % pageSize=0

theorem not_inPages {base last : ℕ} (h : ¬ base≤last) (p : ℕ) : ¬ InPages base last p :=
  fun hp => h (hp.1.trans hp.2.1)

theorem inPages_iff {base last : ℕ} (hbase : base % pageSize=0) (hle : base≤last) (p : ℕ) :
    InPages base last p ↔ p=base ∨ InPages (base+pageSize) last p := by
  unfold InPages pageSize at *
  omega

namespace Writer

section SendPages

variable {code : ℕ → UInt8} {last rounds base : ℕ} {icache icache' : ℕ → Bool} {bs : List UInt8}

theorem sendPages_stop (h : ¬ base≤last) : sendPages code last rounds base icache = .ok ([],icache) := by
  cases rounds <;> rw [sendPages,if_neg h]

theorem sendPages_succ (h : base≤last) :
    sendPages code last (rounds+1) base icache =
      sendPages code last rounds ((base+pageSize) % 2^64) (update icache base true) >>=
        fun x => .ok ((if icache base then [] else icacheRecord code base)++x.1,x.2) := by
  rw [sendPages,if_pos h]

theorem sendPages_cases (h : sendPages code last rounds base icache = .ok (bs,icache')) :
    (¬ base≤last ∧ bs=[] ∧ icache'=icache) ∨
      base≤last ∧ ∃n rest,rounds=n+1 ∧
        bs=(if icache base then [] else icacheRecord code base)++rest ∧
        sendPages code last n ((base+pageSize) % 2^64) (update icache base true) =
          .ok (rest,icache') := by
  by_cases hle : base≤last
  · cases rounds with
    | zero =>
      rw [sendPages,if_pos hle] at h
      cases h
    | succ rounds =>
      rw [sendPages_succ hle] at h
      obtain ⟨⟨rest,icache''⟩,hrest,h⟩:=bind_ok h
      cases h
      exact .inr ⟨hle,rounds,rest,rfl,rfl,hrest⟩
  · rw [sendPages_stop hle] at h
    cases h
    exact .inl ⟨hle,rfl,rfl⟩

theorem sendPages_last (hbase : base % pageSize=0) (hlt : base<2^64)
    (h : sendPages code last rounds base icache = .ok (bs,icache')) : last<2^64 - pageSize := by
  induction rounds using Nat.strong_induction_on generalizing base icache bs with
  | h rounds ih =>
    obtain ⟨hle,-⟩ | ⟨-,n,rest,rfl,-,hrest⟩:=sendPages_cases h
    · unfold pageSize at *
      omega
    · refine ih n (Nat.lt_succ_self n) ?_ (Nat.mod_lt _ (by norm_num)) hrest
      unfold pageSize at *
      omega

theorem sendPages_ok (code : ℕ → UInt8) (icache : ℕ → Bool) (hlast : last≤base+pageSize)
    (hfit : last<2^64 - pageSize) : ∃bs icache',sendPages code last 2 base icache = .ok (bs,icache') := by
  by_cases hle : base≤last
  · have hwrap : (base+pageSize) % 2^64=base+pageSize := Nat.mod_eq_of_lt (by omega)
    rw [sendPages_succ hle,hwrap]
    by_cases hle' : base+pageSize≤last
    · have hstop : ¬ (base+pageSize+pageSize) % 2^64≤last := by
        unfold pageSize at *
        omega
      rw [sendPages_succ hle',sendPages_stop hstop,ok_bind,ok_bind]
      exact ⟨_,_,rfl⟩
    · rw [sendPages_stop hle',ok_bind]
      exact ⟨_,_,rfl⟩
  · exact ⟨_,_,sendPages_stop hle⟩

end SendPages

end Writer

/-- What the reader has of the pages after the loop. -/
structure PagesSent (code : ℕ → UInt8) (base last : ℕ) (icache icache' : ℕ → Bool)
    (old new : ℕ → Option (ℕ → UInt8)) : Prop where
  sent : ∀p,icache' p=true ↔ icache p=true ∨ InPages base last p
  fresh : ∀p,InPages base last p → icache p=false →
    ∃page,new p=some page ∧ ∀k<pageSize,page k=code (p+k)
  kept : ∀p,icache p=true ∨ ¬ InPages base last p → new p=old p

theorem PagesSent.none {code : ℕ → UInt8} {base last : ℕ} (h : ¬ base≤last) (icache : ℕ → Bool)
    (old : ℕ → Option (ℕ → UInt8)) : PagesSent code base last icache icache old old where
  sent p := ⟨.inl,fun hp => hp.resolve_right (not_inPages h p)⟩
  fresh p hp := absurd hp (not_inPages h p)
  kept _ _ := rfl

theorem PagesSent.cons {code : ℕ → UInt8} {base last : ℕ} {icache icache' : ℕ → Bool}
    {old mid new : ℕ → Option (ℕ → UInt8)} (hbase : base % pageSize=0) (hle : base≤last)
    (hfirst : icache base=false → ∃page,mid base=some page ∧ ∀k<pageSize,page k=code (base+k))
    (hmid : ∀p,icache p=true ∨ p≠base → mid p=old p)
    (h : PagesSent code (base+pageSize) last (update icache base true) icache' mid new) :
    PagesSent code base last icache icache' old new := by
  have hpages := inPages_iff hbase hle
  have hself : ¬ InPages (base+pageSize) last base := by
    unfold InPages pageSize
    omega
  refine ⟨fun p => ?_,fun p hp hnew => ?_,fun p hp => ?_⟩
  · rw [h.sent,hpages]
    by_cases hpb : p=base
    · rw [hpb,update_self]
      tauto
    · rw [update_of_ne hpb]
      tauto
  · rcases (hpages p).mp hp with rfl | hlater
    · rw [h.kept p (.inr hself)]
      exact hfirst hnew
    · refine h.fresh p hlater ?_
      rw [update_of_ne (by rintro rfl; exact hself hlater),hnew]
  · by_cases hpb : p=base
    · rw [h.kept p (.inr (hpb ▸ hself)),hmid p (hp.imp_right fun hout heq => ?_)]
      exact hout ((hpages p).mpr (.inl heq))
    · rw [h.kept p ?_,hmid p (.inr hpb)]
      rw [update_of_ne hpb]
      exact hp.imp_right fun hout hlater => hout ((hpages p).mpr (.inr hlater))

theorem sendPages_skips (e : Surroundings) {code : ℕ → UInt8} {last rounds base : ℕ}
    {icache icache' : ℕ → Bool} {bs : List UInt8} {r : Reader} (hend : r.seenEnd=false)
    (hbase : base % pageSize=0) (hlast : last<2^64 - pageSize)
    (h : Writer.sendPages code last rounds base icache = .ok (bs,icache')) :
    ∃ic,Skips e r bs {r with icache:=ic} ∧
      PagesSent code base last icache icache' r.icache ic := by
  induction rounds using Nat.strong_induction_on generalizing base icache bs r with
  | h rounds ih =>
    obtain ⟨hle,rfl,rfl⟩ | ⟨hle,n,rest,rfl,rfl,hrest⟩:=Writer.sendPages_cases h
    · exact ⟨r.icache,Skips.refl e r,PagesSent.none hle _ _⟩
    · have hwrap : (base+pageSize) % 2^64=base+pageSize := Nat.mod_eq_of_lt (by omega)
      have hbase' : (base+pageSize) % pageSize=0 := by rw [Nat.add_mod_right,hbase]
      rw [hwrap] at hrest
      by_cases hsent : icache base=true
      · obtain ⟨ic,hskips,hpages⟩:=ih n (Nat.lt_succ_self n) hend hbase' hrest
        rw [if_pos hsent,nil_append]
        refine ⟨ic,hskips,hpages.cons hbase hle (fun hnew => ?_) fun _ _ => rfl⟩
        rw [hsent] at hnew
        cases hnew
      · obtain ⟨page,hpage,hfirst⟩:=skips_icache hend code (show base<2^64 by omega)
        obtain ⟨ic,hskips,hpages⟩:=ih n (Nat.lt_succ_self n)
          (r:={r with icache:=update r.icache base (some page)}) hend hbase' hrest
        rw [if_neg hsent]
        refine ⟨ic,hfirst.trans hskips,hpages.cons hbase hle (fun _ => ?_) fun p hp => ?_⟩
        · exact ⟨page,update_self ..,hpage⟩
        · refine update_of_ne ?_ _ _
          rintro rfl
          exact hp.elim hsent fun hne => hne rfl

namespace Reader

theorem linkStatic_scache_self (r : Reader) (a : ℕ) (s : StaticInstruction) :
    (r.linkStatic a s).scache a=some s := update_self ..

theorem linkStatic_scache_of_ne (r : Reader) {a b : ℕ} (h : b≠a) (s : StaticInstruction) :
    (r.linkStatic a s).scache b=r.scache b := update_of_ne h ..

theorem linkStatic_next {r : Reader} {a b l : ℕ} {s : StaticInstruction}
    (h : (r.linkStatic a s).next l=some b) : b=a ∨ r.next l=some b := by
  cases hlast : r.lastSinst with
  | none =>
    simp only [linkStatic,hlast] at h
    exact .inr h
  | some l' =>
    simp only [linkStatic,hlast] at h
    split_ifs at h
    · by_cases hl : l=l'
      · rw [hl,update_self] at h
        exact .inl (Option.some.inj h).symm
      · rw [update_of_ne hl] at h
        exact .inr h
    · exact .inr h

theorem deliver_ok {r : Reader} {f : Fields} {s : StaticInstruction} (addresses : List UInt64)
    (h : {r with lastAddress:=(f.addr+f.size) % 2^64}.findStatic f.addr f.size = .ok s) :
    r.deliver f addresses =
      .ok (⟨s,addresses,f.isBranch,f.taken,f.isPredicate,f.executed,r.isa⟩,
        {r with lastAddress:=(f.addr+f.size) % 2^64}.linkStatic f.addr s) := by
  rw [deliver,getStaticInstruction,h]
  rfl

end Reader

/-- Writer and reader after the instructions `done`. -/
structure Lockstep (o : WriterOptions) (done : List InstructionCall) (w : Writer) (r : Reader) :
    Prop where
  options : w.options=o
  initialised : r.initialised=true
  running : r.seenEnd=false
  lastAddress : r.lastAddress=w.lastAddress
  sent : ∀p,w.icache p=(sender o done p).isSome
  pages : o.requiresIcachePerInsn=false → ∀p c,sender o done p=some c →
    ∃page,r.icache p=some page ∧ ∀k<pageSize,page k=c.code (p+k)
  cached : ∀a s,r.scache a=some s →
    ∃c∈done,c.addr.toNat=a ∧ s=⟨a,c.size.toNat,sentCode o done a c.size.toNat⟩
  reached : ∀c∈done,(r.scache c.addr.toNat).isSome
  linked : ∀l a,r.next l=some a → (r.scache a).isSome

/-- The code is on the reader's side before the instruction: the writer's and the reader's
memory of it, and the bytes if the static part is not known yet. -/
structure CodeArrived (o : WriterOptions) (done : List InstructionCall) (c : InstructionCall)
    (icache : ℕ → Bool) (ic : ℕ → Option (ℕ → UInt8)) (known : Prop) : Prop where
  sent : ∀p,icache p=(sender o (done++[c]) p).isSome
  pages : o.requiresIcachePerInsn=false → ∀p c',sender o (done++[c]) p=some c' →
    ∃page,ic p=some page ∧ ∀k<pageSize,page k=c'.code (p+k)
  code : ¬ known → ∀i<c.size.toNat,
    codeAt ic (c.addr.toNat+i)=some (sentByte o (done++[c]) c.addr.toNat i)

namespace Lockstep

variable {e : Surroundings} {o : WriterOptions} {done : List InstructionCall} {w w' : Writer}
  {r : Reader} {c : InstructionCall} {rounds : ℕ} {bs : List UInt8} {icache : ℕ → Bool}

theorem sender_variable (hmode : o.requiresIcachePerInsn=true) {p : ℕ} {c' : InstructionCall}
    (h : sender o done p=some c') : c'∈done ∧ c'.addr.toNat=p := by
  refine ⟨mem_of_find?_eq_some h,?_⟩
  have hneeds := List.find?_some h
  rwa [needs,if_pos hmode,beq_iff_eq] at hneeds

theorem sendCode_variable (h : Lockstep o done w r) (hc : Encodable c)
    (hmode : o.requiresIcachePerInsn=true) (hsend : w.sendCode rounds c = .ok (bs,icache)) :
    ∃ic,Skips e r bs {r with icache:=ic} ∧
      CodeArrived o done c icache ic ((r.scache c.addr.toNat).isSome) := by
  rw [Writer.sendCode,h.options,if_pos hmode] at hsend
  cases hsend
  have hlength : c.codeBytes.length=c.size.toNat := by
    rw [InstructionCall.codeBytes,length_map,length_range]
  have hsent : ∀p,update w.icache c.addr.toNat true p =
      (sender o (done++[c]) p).isSome := by
    intro p
    rw [sender_concat,needs,if_pos hmode,Option.isSome_or,← h.sent]
    by_cases hp : p=c.addr.toNat
    · rw [hp,update_self,if_pos (beq_self_eq_true _)]
      exact (Bool.or_true _).symm
    · rw [update_of_ne hp,if_neg (by rw [beq_iff_eq]; exact Ne.symm hp)]
      exact (Bool.or_false _).symm
  have hpages : ∀ic : ℕ → Option (ℕ → UInt8),o.requiresIcachePerInsn=false →
      ∀p c',sender o (done++[c]) p=some c' →
        ∃page,ic p=some page ∧ ∀k<pageSize,page k=c'.code (p+k) := by
    intro ic hmode'
    rw [hmode] at hmode'
    cases hmode'
  by_cases hold : w.icache c.addr.toNat=true
  · rw [if_pos hold]
    refine ⟨r.icache,Skips.refl e r,hsent,hpages _,fun hunknown => absurd ?_ hunknown⟩
    rw [h.sent] at hold
    obtain ⟨c',hc'⟩:=Option.isSome_iff_exists.mp hold
    obtain ⟨hmem,haddr⟩:=sender_variable hmode hc'
    exact haddr ▸ h.reached c' hmem
  · rw [if_neg hold]
    obtain ⟨ic,hcode,hskips⟩:=skips_icacheVariable (e:=e) h.running
      (show c.addr.toNat+c.codeBytes.length≤2^64 by rw [hlength]; exact hc.fits)
      (by rw [hlength]; have := hc.size_le; omega) c.addr.toNat_lt
    rw [hlength] at hskips hcode
    refine ⟨ic,hskips,hsent,hpages ic,fun _ i hi => ?_⟩
    have hfirst : sender o (done++[c]) c.addr.toNat=some c := by
      have hnone : sender o done c.addr.toNat=none := by
        rw [h.sent,Bool.not_eq_true] at hold
        exact Option.isNone_iff_eq_none.mp (Option.isSome_eq_false_iff.mp hold)
      rw [sender_concat,hnone,needs,if_pos hmode,if_pos (beq_self_eq_true _),Option.none_or]
    rw [hcode i hi,sentByte,keyOf,if_pos hmode,hfirst]
    simp [InstructionCall.codeBytes,hi]

theorem needs_pages (hmode : o.requiresIcachePerInsn=false) (hc : Encodable c) (p : ℕ) :
    needs o p c=true ↔ InPages (pageOf c.addr.toNat) (pageOf (c.addr.toNat+c.size.toNat - 1)) p := by
  rw [needs,if_neg (by rw [hmode]; exact Bool.false_ne_true),onPage_iff hc,InPages]

theorem sendCode_pages (h : Lockstep o done w r) (hc : Encodable c)
    (hmode : o.requiresIcachePerInsn=false) (hsend : w.sendCode rounds c = .ok (bs,icache)) :
    ∃ic,Skips e r bs {r with icache:=ic} ∧
      CodeArrived o done c icache ic ((r.scache c.addr.toNat).isSome) := by
  have hmode' : ¬ o.requiresIcachePerInsn=true := by rw [hmode]; exact Bool.false_ne_true
  rw [Writer.sendCode,h.options,if_neg hmode',hc.lastByte] at hsend
  have hlast := Writer.sendPages_last (pageOf_mod _)
    (lt_of_le_of_lt (Nat.div_mul_le_self _ _) c.addr.toNat_lt) hsend
  obtain ⟨ic,hskips,hsent⟩:=sendPages_skips e h.running (pageOf_mod _) hlast hsend
  have hpages : ∀p c',sender o (done++[c]) p=some c' →
      ∃page,ic p=some page ∧ ∀k<pageSize,page k=c'.code (p+k) := by
    intro p c' hsender
    rw [sender_concat] at hsender
    cases hold : sender o done p with
    | some c'' =>
      rw [hold] at hsender
      cases hsender
      rw [hsent.kept p (.inl (by rw [h.sent,hold]; rfl))]
      exact h.pages hmode p c' hold
    | none =>
      rw [hold,Option.none_or] at hsender
      split_ifs at hsender with hneeds
      cases hsender
      exact hsent.fresh p ((needs_pages hmode hc p).mp hneeds) (by rw [h.sent,hold]; rfl)
  refine ⟨ic,hskips,fun p => ?_,fun _ => hpages,fun _ i hi => ?_⟩
  · rw [Bool.eq_iff_iff,hsent.sent,← needs_pages hmode hc,sender_concat,Option.isSome_or,h.sent,
      Bool.or_eq_true]
    by_cases hneeds : needs o p c=true
    · rw [if_pos hneeds]
      simp [hneeds]
    · rw [if_neg hneeds]
      simp [hneeds]
  · obtain ⟨c',hc'⟩:=Option.isSome_iff_exists.mp
      (sender_isSome (o:=o) (mem_append_right done (mem_singleton_self c)) hi)
    obtain ⟨page,hpage,hcode⟩:=hpages _ c' hc'
    rw [sentByte,hc']
    rw [keyOf,if_neg hmode'] at hpage hcode
    rw [codeAt,hpage,Option.map_some,hcode _ (offsetOf_lt _),pageOf_add_offsetOf]
    rfl

theorem sendCode (h : Lockstep o done w r) (hc : Encodable c)
    (hsend : w.sendCode rounds c = .ok (bs,icache)) :
    ∃ic,Skips e r bs {r with icache:=ic} ∧
      CodeArrived o done c icache ic ((r.scache c.addr.toNat).isSome) := by
  cases hmode : o.requiresIcachePerInsn with
  | true => exact h.sendCode_variable hc hmode hsend
  | false => exact h.sendCode_pages hc hmode hsend

theorem findStatic (h : Lockstep o done w r) (hc : Encodable c)
    (hsize : ∀c'∈done,c'.addr.toNat=c.addr.toNat → c'.size.toNat=c.size.toNat) {ic : ℕ → Option (ℕ → UInt8)}
    (hcode : CodeArrived o done c icache ic ((r.scache c.addr.toNat).isSome)) (r' : Reader)
    (hic : r'.icache=ic) (hscache : r'.scache=r.scache) (hnext : r'.next=r.next) :
    r'.findStatic c.addr.toNat c.size.toNat =
      .ok ⟨c.addr.toNat,c.size.toNat,sentCode o (done++[c]) c.addr.toNat c.size.toNat⟩ := by
  have hknown : ∀s,r.scache c.addr.toNat=some s →
      s=⟨c.addr.toNat,c.size.toNat,sentCode o (done++[c]) c.addr.toNat c.size.toNat⟩ := by
    intro s hs
    obtain ⟨c',hmem,haddr,rfl⟩:=h.cached _ _ hs
    have happend := sentCode_append (o:=o) hmem [c]
    rw [haddr,hsize c' hmem haddr] at happend
    rw [hsize c' hmem haddr,happend]
  rw [Reader.findStatic,hscache,hnext]
  cases hs : r.scache c.addr.toNat with
  | some s =>
    obtain rfl:=hknown s hs
    simp only [if_pos,ite_self]
  | none =>
    rw [if_neg]
    · refine staticInfoInstruction_ok hc.fits fun i hi => ?_
      rw [hic]
      exact hcode.code (by rw [hs]; exact Bool.false_ne_true) i hi
    · intro hlink
      obtain ⟨l,-,hl⟩:=Option.bind_eq_some_iff.mp hlink
      have hsome := h.linked l _ hl
      rw [hs] at hsome
      cases hsome

theorem sendVa2pas (hend : r.seenEnd=false) (pagemap : ℕ → UInt64) (vas : List UInt64)
    (w : Writer) : ∃vcache va2pa,(Writer.sendVa2pas pagemap w vas).2={w with va2pa} ∧
      Skips e r (Writer.sendVa2pas pagemap w vas).1 {r with vcache} := by
  induction vas generalizing w r with
  | nil => exact ⟨r.vcache,w.va2pa,rfl,Skips.refl e r⟩
  | cons va vas ih =>
    obtain ⟨vcache,va2pa,hfirst,hskips⟩ : ∃vcache va2pa,
        (Writer.sendVa2pa pagemap w va).2={w with va2pa} ∧
          Skips e r (Writer.sendVa2pa pagemap w va).1 {r with vcache} := by
      unfold Writer.sendVa2pa
      dsimp only
      split_ifs
      · exact ⟨_,_,rfl,skips_logical2Physical hend
          (lt_of_le_of_lt (Nat.div_le_self _ _) va.toNat_lt) _⟩
      · exact ⟨r.vcache,w.va2pa,rfl,Skips.refl e r⟩
    obtain ⟨vcache',va2pa',hrest,hskips'⟩:=ih (r:={r with vcache}) hend {w with va2pa}
    rw [← hfirst] at hrest hskips'
    refine ⟨vcache',va2pa',?_,hskips.trans hskips'⟩
    rw [Writer.sendVa2pas,hrest,hfirst]

theorem link (h : Lockstep o done w r) {ic : ℕ → Option (ℕ → UInt8)}
    (hcode : CodeArrived o done c icache ic ((r.scache c.addr.toNat).isSome))
    (va2pa : ℕ → Bool) (vcache : ℕ → Option ℕ) (last : ℕ) :
    Lockstep o (done++[c]) ⟨w.options,last,icache,va2pa⟩
      ({r with icache:=ic,vcache,lastAddress:=last}.linkStatic c.addr.toNat
        ⟨c.addr.toNat,c.size.toNat,sentCode o (done++[c]) c.addr.toNat c.size.toNat⟩) where
  options := h.options
  initialised := h.initialised
  running := h.running
  lastAddress := rfl
  sent := hcode.sent
  pages := hcode.pages
  cached := by
    intro a s hs
    by_cases ha : a=c.addr.toNat
    · subst ha
      rw [linkStatic_scache_self] at hs
      cases hs
      exact ⟨c,mem_append_right _ (mem_singleton_self c),rfl,rfl⟩
    · rw [linkStatic_scache_of_ne _ ha] at hs
      obtain ⟨c',hmem,rfl,rfl⟩:=h.cached a s hs
      refine ⟨c',mem_append_left _ hmem,rfl,?_⟩
      rw [sentCode_append hmem]
  reached := by
    intro c' hc'
    by_cases ha : c'.addr.toNat=c.addr.toNat
    · rw [ha,linkStatic_scache_self]
      rfl
    · rw [linkStatic_scache_of_ne _ ha]
      refine h.reached c' ((mem_append.mp hc').resolve_right fun hmem => ha ?_)
      rw [mem_singleton.mp hmem]
  linked := by
    intro l a ha
    by_cases hself : a=c.addr.toNat
    · rw [hself,linkStatic_scache_self]
      rfl
    · rw [linkStatic_scache_of_ne _ hself]
      exact h.linked l a ((linkStatic_next ha).resolve_left hself)

theorem instruction (h : Lockstep o done w r) (hc : Encodable c)
    (hsize : ∀c'∈done,c'.addr.toNat=c.addr.toNat → c'.size.toNat=c.size.toNat)
    (hcall : w.instruction rounds c = .ok (bs,w')) :
    ∃r',Lockstep o (done++[c]) w' r' ∧ ∀n inst rest,bs.length≤n →
      (readLoop e n inst r).run (bs++rest) = .ok ((true,
        ⟨⟨c.addr.toNat,c.size.toNat,sentCode o (done++[c]) c.addr.toNat c.size.toNat⟩,c.addresses,c.isBranch,
          c.taken,c.isPredicate,c.executed,r.isa⟩,r'),rest) := by
  have hle := hc.size_le
  have hlen := hc.addresses_le
  rw [Writer.instruction,if_neg (by omega)] at hcall
  obtain ⟨⟨code,icache⟩,hsend,hcall⟩:=bind_ok hcall
  obtain ⟨ic,hskips,hcode⟩:=h.sendCode (e:=e) hc hsend
  obtain ⟨vcache,va2pa,hmapped,hskips'⟩:=sendVa2pas (e:=e) (r:={r with icache:=ic})
    h.running c.pagemap (c.addr::c.addresses) {w with icache}
  dsimp only at hcall
  rw [hmapped] at hcall
  cases hcall
  refine ⟨_,h.link hcode va2pa vcache _,fun n inst rest hn => ?_⟩
  obtain ⟨k,hk,hloop⟩:=hskips.trans hskips'
  obtain ⟨byte,tail,hrecord,-⟩:=instructionRecord_parses hc w.lastAddress
  obtain ⟨m,rfl⟩ : ∃m,n=m+1+k := by
    refine ⟨n - 1 - k,?_⟩
    simp only [hrecord,length_append,length_cons] at hn hk
    omega
  have hstatic := h.findStatic hc hsize hcode { r with
    icache := ic,vcache,lastAddress := (c.addr.toNat+c.size.toNat) % 2^64 } rfl rfl rfl
  have hdeliver := deliver_ok (r:={r with icache:=ic,vcache}) (f:=fieldsOf c) c.addresses
    hstatic
  have hread := readLoop_instruction (e:=e) (r:={r with icache:=ic,vcache}) hc h.running
    hdeliver m inst rest
  rw [append_assoc,append_assoc,append_assoc,← append_assoc code,hloop,
    ← append_assoc (Writer.instructionRecord _ c),← h.lastAddress]
  exact hread

theorem skips (h : Lockstep o done w r) {call : WriterCall} (hcall : w.call rounds call = .ok (bs,w'))
    (hother : ∀c,call ≠ .instruction c) (hfits : call.OutputFits) :
    ∃r',Lockstep o done w' r' ∧ Skips e r bs r' := by
  cases call with
  | instruction c => exact absurd rfl (hother c)
  | cacheOnly icount type eip address pagemap =>
    obtain ⟨vcache,va2pa,hmapped,hskips⟩:=sendVa2pas (e:=e) h.running pagemap [eip,address] w
    unfold Writer.call at hcall
    dsimp only at hcall
    rw [hmapped] at hcall
    cases hcall
    exact ⟨{r with vcache},{h with},hskips.trans
      (skips_cacheOnly (r:={r with vcache}) h.running icount type eip address)⟩
  | output fd data size =>
    cases hcall
    exact ⟨r,h,skips_output h.running fd data hfits.1 hfits.2⟩
  | routineChange event eip esp callEip =>
    cases hcall
    exact ⟨r,h,skips_routineChange h.running event eip esp callEip⟩
  | routineAnnounce eip name imgname offset line column filename =>
    cases hcall
    exact ⟨r,h,skips_routineAnnounce h.running eip name imgname offset line column filename⟩
  | isaChange newIsa =>
    cases hcall
    exact ⟨{r with isa:=newIsa.toNat},{h with},skips_isaChange h.running newIsa⟩

end Lockstep

end Sniper.Sift
