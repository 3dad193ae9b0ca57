import Sniper.SiftLockstep

/-!
# The round trip of a SIFT trace

Which sequences of calls are read back as they were written: the writer has to finish, the
reader has to accept every record, and the code that was sent for an instruction has to be its
code still.
-/

namespace Sniper.Sift
open ByteParsers FallibleRuns Reader List

def instructionsOf (calls : List WriterCall) : List InstructionCall :=
  calls.filterMap fun
    | .instruction c => some c
    | _ => none

/-- The instruction that was read is the one that was written. -/
structure Instruction.Shows (inst : Instruction) (c : InstructionCall) : Prop where
  static : inst.sinst=⟨c.addr.toNat,c.size.toNat,c.codeBytes⟩
  addresses : inst.addresses=c.addresses
  isBranch : inst.isBranch=c.isBranch
  taken : inst.taken=c.taken
  isPredicate : inst.isPredicate=c.isPredicate
  executed : inst.executed=c.executed

/-- A read and the reads after it, with any output parameter, return true with the
instructions, and then false at the end of the input. -/
def Returns (e : Surroundings)
    (read : Instruction → Except Abort ((Bool × Instruction × Reader) × List UInt8)) :
    List InstructionCall → Prop
  | [] => ∀inst,∃inst' r',read inst = .ok ((false,inst',r'),[]) ∧ r'.seenEnd=true
  | c::cs => ∀inst,∃inst' r' rest,read inst = .ok ((true,inst',r'),rest) ∧
    inst'.Shows c ∧ Returns e (fun inst => (r'.read e inst).run rest) cs

/-- The writer finishes the trace, and a reader in any surroundings reads it back. -/
def RoundTrips (o : WriterOptions) (calls : List WriterCall) : Prop :=
  ∃rounds bytes,Writer.trace rounds o calls = .ok bytes ∧
    ∀e,Returns e (fun inst => (Reader.new.read e inst).run bytes) (instructionsOf calls)

/-- Every instruction fits the format, and each code address is always used with one size and
the same code bytes. -/
structure Admissible (cs : List InstructionCall) : Prop where
  encodable : ∀c∈cs,Encodable c
  constant : ∀c∈cs,∀c'∈cs,c.addr=c'.addr → c.size=c'.size ∧ c.codeBytes=c'.codeBytes

/-- The instruction does not reach the last page of the address space. -/
def InstructionCall.BelowLastPage (c : InstructionCall) : Prop := c.addr.toNat+c.size.toNat≤2^64 - pageSize

/-- The first instruction on each page finds the same code there as the later ones. -/
def CodeKept (cs : List InstructionCall) : Prop :=
  ∀c∈cs,∀i<c.size.toNat,∀c',
    cs.find? (fun d => d.onPage (pageOf (c.addr.toNat+i)))=some c' →
      c'.code (c.addr.toNat+i)=c.code (c.addr.toNat+i)

section Code

variable {o : WriterOptions} {cs : List InstructionCall}

theorem sentCode_eq_iff {c : InstructionCall} : sentCode o cs c.addr.toNat c.size.toNat=c.codeBytes ↔
      ∀i<c.size.toNat,sentByte o cs c.addr.toNat i=c.code (c.addr.toNat+i) := by
  simp only [sentCode,InstructionCall.codeBytes,map_inj_left,mem_range]

theorem sentCode_variable (hmode : o.requiresIcachePerInsn=true) (hcs : Admissible cs) {c : InstructionCall}
    (hc : c∈cs) : sentCode o cs c.addr.toNat c.size.toNat=c.codeBytes := by
  rw [sentCode_eq_iff]
  intro i hi
  obtain ⟨c',hc'⟩:=Option.isSome_iff_exists.mp (sender_isSome (o:=o) hc hi)
  obtain ⟨hmem,haddr⟩:=Lockstep.sender_variable hmode hc'
  rw [keyOf,if_pos hmode] at haddr
  obtain ⟨hsize,hbytes⟩:=hcs.constant c' hmem c hc (UInt64.toNat_inj.mp haddr)
  rw [InstructionCall.codeBytes,InstructionCall.codeBytes,hsize,map_inj_left] at hbytes
  have hbyte := hbytes i (mem_range.mpr hi)
  rw [haddr] at hbyte
  rw [sentByte,hc',Option.map_some,Option.getD_some,hbyte]

theorem sentByte_pages (hmode : o.requiresIcachePerInsn=false) {c : InstructionCall} {i : ℕ}
    {c' : InstructionCall} (hc' : cs.find? (fun d => d.onPage (pageOf (c.addr.toNat+i)))=some c') :
    sentByte o cs c.addr.toNat i=c'.code (c.addr.toNat+i) := by
  have hsender : sender o cs (keyOf o c.addr.toNat i)=some c' := by
    have hmode' : ¬ o.requiresIcachePerInsn=true := by rw [hmode]; exact Bool.false_ne_true
    have hneeds : needs o (pageOf (c.addr.toNat+i)) =
        fun d => d.onPage (pageOf (c.addr.toNat+i)) := by
      funext d
      rw [needs,if_neg hmode']
    rw [sender,keyOf,if_neg hmode',hneeds,hc']
  rw [sentByte,hsender,Option.map_some,Option.getD_some]

theorem sentCode_pages (hmode : o.requiresIcachePerInsn=false) :
    (∀c∈cs,sentCode o cs c.addr.toNat c.size.toNat=c.codeBytes) ↔ CodeKept cs := by
  refine forall₂_congr fun c hc => sentCode_eq_iff.trans (forall₂_congr fun i hi => ?_)
  constructor
  · intro hbyte c' hc'
    rw [← sentByte_pages hmode hc',hbyte]
  · intro hkept
    have hsome : (cs.find? fun d => d.onPage (pageOf (c.addr.toNat+i))).isSome :=
      List.find?_isSome.mpr ⟨c,hc,any_eq_true.mpr
        ⟨i,mem_range.mpr hi,beq_self_eq_true _⟩⟩
    obtain ⟨c',hc'⟩:=Option.isSome_iff_exists.mp hsome
    rw [sentByte_pages hmode hc',hkept c' hc']

theorem sentCode_iff (hcs : Admissible cs) : (∀c∈cs,sentCode o cs c.addr.toNat c.size.toNat=c.codeBytes) ↔
      (o.requiresIcachePerInsn=false → CodeKept cs) := by
  cases hmode : o.requiresIcachePerInsn with
  | true => exact iff_of_true (fun c hc => sentCode_variable hmode hcs hc) fun h => by cases h
  | false => rw [sentCode_pages hmode,forall_prop_of_true rfl]

end Code

section Reading

variable {e : Surroundings} {o : WriterOptions} {r r' : Reader}
  {read : Instruction → Except Abort ((Bool × Instruction × Reader) × List UInt8)}

theorem returns_cons_iff {c : InstructionCall} {cs : List InstructionCall} {inst' : Instruction}
    {rest : List UInt8} (h : ∀inst,read inst = .ok ((true,inst',r'),rest)) : Returns e read (c::cs) ↔
      inst'.Shows c ∧ Returns e (fun inst => (r'.read e inst).run rest) cs := by
  constructor
  · intro hreturns
    obtain ⟨inst'',r'',rest',hread,hshows,hrest⟩:=hreturns inst'
    rw [h] at hread
    cases hread
    exact ⟨hshows,hrest⟩
  · rintro ⟨hshows,hrest⟩ inst
    exact ⟨inst',r',rest,h inst,hshows,hrest⟩

theorem not_returns {a : Abort} (h : ∀inst,read inst = .error a) (cs : List InstructionCall) :
    ¬ Returns e read cs := by
  intro hreturns
  let inst : Instruction := ⟨⟨0,0,[]⟩,[],false,false,false,false,0⟩
  cases cs with
  | nil =>
    obtain ⟨_,_,hread,-⟩:=hreturns inst
    rw [h] at hread
    cases hread
  | cons c cs =>
    obtain ⟨_,_,_,hread,-⟩:=hreturns inst
    rw [h] at hread
    cases hread

theorem read_initialised (h : r.initialised=true) (input : List UInt8) :
    (fun inst => (r.read e inst).run input) = fun inst => (readLoop e (input.length+1) inst r).run input := by
  funext inst
  rw [Reader.read,if_pos h]
  rfl

theorem shows_iff {c : InstructionCall} {code : List UInt8} {isa : ℕ} :
    Instruction.Shows ⟨⟨c.addr.toNat,c.size.toNat,code⟩,c.addresses,c.isBranch,c.taken,c.isPredicate,
      c.executed,isa⟩ c ↔ code=c.codeBytes := by
  constructor
  · intro h
    exact congrArg StaticInstruction.data h.static
  · rintro rfl
    exact ⟨rfl,rfl,rfl,rfl,rfl,rfl⟩

theorem bits_lt (o : WriterOptions) : o.bits<16 := by
  have h₁ := o.useCompression.toNat_le
  have h₂ := o.arch32.toNat_le
  have h₃ := o.requiresIcachePerInsn.toNat_le
  have h₄ := o.sendVa2paMapping.toNat_le
  unfold WriterOptions.bits
  omega

theorem header_parses (o : WriterOptions) : ∃traceHasPa,
    Parses Reader.new.initStream (Writer.header o)
      (true,{Reader.new with initialised:=true,traceHasPa}) := by
  have hbits := bits_lt o
  refine ⟨decide (o.bits / 8 % 2=1),?_⟩
  rw [Writer.header,append_assoc]
  refine (parses_word (by decide)).bind ((parses_word (by decide)).bind
    ((parses_word (by norm_num; omega)).bind_last ?_))
  rw [if_neg (by simp),decide_eq_true (Nat.div_eq_of_lt hbits)]
  exact Parses.pure _

theorem lockstep_new (e : Surroundings) (o : WriterOptions) : ∃r,Lockstep o [] (.new o) r ∧ ∀body,
      (fun inst => (Reader.new.read e inst).run (Writer.header o++body)) =
        fun inst => (readLoop e (body.length+1) inst r).run body := by
  obtain ⟨traceHasPa,hparse⟩:=header_parses o
  refine ⟨{Reader.new with initialised:=true,traceHasPa},?_,fun body => ?_⟩
  · refine ⟨rfl,rfl,rfl,rfl,fun _ => rfl,fun _ _ _ h => ?_,fun _ _ h => ?_,fun _ h => ?_,
      fun _ _ h => ?_⟩ <;> cases h
  · funext inst
    rw [Reader.read,if_neg (by exact Bool.false_ne_true),StateT.run_bind,hparse]
    rfl

theorem instructionsOf_other {call : WriterCall} (h : ∀c,call ≠ .instruction c) (calls : List WriterCall) :
    instructionsOf (call::calls)=instructionsOf calls := by
  cases call with
  | instruction c => exact absurd rfl (h c)
  | _ => rfl

theorem readLoop_unfit {rounds n : ℕ} {w w' : Writer} {call : WriterCall} {bs : List UInt8}
    (hend : r.seenEnd=false) (hcall : w.call rounds call = .ok (bs,w')) (hfits : ¬ call.OutputFits)
    (hn : bs.length≤n) (inst : Instruction) (rest : List UInt8) :
    (readLoop e n inst r).run (bs++rest) = .error .assertion := by
  cases call with
  | output fd data size =>
    cases hcall
    obtain ⟨m,rfl⟩ : ∃m,n=m+1:=⟨n - 1,by
      simp only [otherHeader,length_append,length_littleEndian] at hn
      omega⟩
    rw [append_assoc]
    exact readLoop_output_fails hend size.toNat_lt hfits m inst _
  | _ => exact absurd trivial hfits

/-- From a state in lock step, the reads return the instructions exactly if every output fits
and all the code that was sent for them is theirs. -/
theorem Lockstep.returns_iff {done : List InstructionCall} {w : Writer} (h : Lockstep o done w r)
    {rounds n : ℕ} {calls : List WriterCall} (hcs : Admissible (done++instructionsOf calls))
    {records : List (List UInt8)} (hrecords : outputs (Writer.call rounds) w calls = .ok records)
    (hn : (records.flatten++otherHeader .traceEnd 0).length≤n) :
    Returns e (fun inst => (readLoop e n inst r).run (records.flatten++otherHeader .traceEnd 0))
      (instructionsOf calls) ↔ (∀call∈calls,call.OutputFits) ∧ ∀c∈instructionsOf calls,
      sentCode o (done++instructionsOf calls) c.addr.toNat c.size.toNat=c.codeBytes := by
  induction calls generalizing done w r n records with
  | nil =>
    cases hrecords
    refine iff_of_true (fun inst => ?_) ⟨by simp,by simp [instructionsOf]⟩
    obtain ⟨m,rfl⟩ : ∃m,n=m+1:=⟨n - 1,by
      simp only [otherHeader,flatten_nil,nil_append,length_append,length_littleEndian] at hn
      omega⟩
    exact ⟨_,_,readLoop_end h.running m inst,rfl⟩
  | cons call calls ih =>
    rw [outputs] at hrecords
    obtain ⟨⟨bs,w'⟩,hcall,hrecords⟩:=bind_ok hrecords
    obtain ⟨records,hrest,hrecords⟩:=bind_ok hrecords
    cases hrecords
    rw [flatten_cons,append_assoc] at hn ⊢
    rw [length_append] at hn
    rw [forall_mem_cons]
    by_cases hinst : ∃c,call = .instruction c
    · obtain ⟨c,rfl⟩:=hinst
      have hcons : instructionsOf (.instruction c::calls)=c::instructionsOf calls := rfl
      have hsplit : done++c::instructionsOf calls=done++[c]++instructionsOf calls := by simp
      have hmem : c∈done++[c] := mem_append_right _ (mem_singleton_self c)
      rw [hcons,hsplit] at hcs
      rw [hcons,hsplit,forall_mem_cons,sentCode_append hmem]
      have hsize : ∀c'∈done,c'.addr.toNat=c.addr.toNat → c'.size.toNat=c.size.toNat := by
        intro c' hc' haddr
        rw [(hcs.constant c' (by simp [hc']) c (by simp) (UInt64.toNat_inj.mp haddr)).1]
      obtain ⟨r',hlock,hread⟩:=h.instruction (e:=e) (hcs.encodable c (by simp)) hsize hcall
      rw [returns_cons_iff fun inst => hread n inst _ (by omega),shows_iff,read_initialised hlock.initialised,
        ih hlock hcs hrest (Nat.le_succ _)]
      simp only [WriterCall.OutputFits,true_and]
      exact and_left_comm
    · have hother : ∀c,call ≠ .instruction c := fun c heq => hinst ⟨c,heq⟩
      rw [instructionsOf_other hother] at hcs ⊢
      by_cases hfits : call.OutputFits
      · obtain ⟨r',hlock,k,hk,hloop⟩:=h.skips (e:=e) hcall hother hfits
        obtain ⟨m,rfl⟩ : ∃m,n=m+k:=⟨n - k,by omega⟩
        simp only [hloop,ih hlock hcs hrest (show _ ≤ m by omega),hfits,true_and]
      · exact iff_of_false (not_returns
          (fun inst => readLoop_unfit h.running hcall hfits (by omega) inst _) _)
          fun hall => hfits hall.1.1

end Reading

section Writing

variable {o : WriterOptions} {w w' : Writer} {bs : List UInt8} {rounds : ℕ}

/-- What the writer needs to finish with an instruction. -/
def WriterCall.Finishes (o : WriterOptions) : WriterCall → Prop
  | .instruction c => o.requiresIcachePerInsn=false → c.BelowLastPage
  | _ => True

theorem belowLastPage_iff {c : InstructionCall} (hc : Encodable c) :
    c.BelowLastPage ↔ pageOf (c.addr.toNat+c.size.toNat - 1)<2^64 - pageSize := by
  have hpos := hc.size_pos
  unfold InstructionCall.BelowLastPage pageOf pageSize
  omega

theorem sendVa2pas_options (pagemap : ℕ → UInt64) (w : Writer) (vas : List UInt64) :
    (Writer.sendVa2pas pagemap w vas).2.options=w.options := by
  induction vas generalizing w with
  | nil => rfl
  | cons va vas ih =>
    rw [Writer.sendVa2pas,ih,Writer.sendVa2pa]
    split_ifs <;> rfl

theorem sendCode_finishes {c : InstructionCall} (hc : Encodable c) {icache : ℕ → Bool}
    (h : w.sendCode rounds c = .ok (bs,icache)) (hmode : w.options.requiresIcachePerInsn=false) :
    c.BelowLastPage := by
  rw [Writer.sendCode,if_neg (by rw [hmode]; exact Bool.false_ne_true),hc.lastByte] at h
  exact (belowLastPage_iff hc).mpr (Writer.sendPages_last (pageOf_mod _)
    (lt_of_le_of_lt (Nat.div_mul_le_self _ _) c.addr.toNat_lt) h)

theorem sendCode_ok {c : InstructionCall} (hc : Encodable c)
    (h : w.options.requiresIcachePerInsn=false → c.BelowLastPage) : ∃x,w.sendCode 2 c = .ok x := by
  have hle := hc.size_le
  rw [Writer.sendCode,hc.lastByte]
  cases hmode : w.options.requiresIcachePerInsn with
  | true => exact ⟨_,rfl⟩
  | false =>
    have hpages : pageOf (c.addr.toNat+c.size.toNat - 1)≤pageOf c.addr.toNat+pageSize := by
      unfold pageOf pageSize
      omega
    obtain ⟨bs,icache,hsend⟩:=Writer.sendPages_ok c.code w.icache hpages
      ((belowLastPage_iff hc).mp (h hmode))
    exact ⟨_,hsend⟩

theorem call_finishes {call : WriterCall} (hc : ∀c,call = .instruction c → Encodable c)
    (h : w.call rounds call = .ok (bs,w')) : call.Finishes w.options ∧ w'.options=w.options := by
  cases call with
  | instruction c =>
    have hc := hc c rfl
    have hle := hc.size_le
    have hlen := hc.addresses_le
    rw [Writer.call,Writer.instruction,if_neg (by omega)] at h
    obtain ⟨⟨code,icache⟩,hsend,h⟩:=bind_ok h
    cases h
    exact ⟨sendCode_finishes hc hsend,sendVa2pas_options ..⟩
  | cacheOnly icount type eip address pagemap =>
    cases h
    exact ⟨trivial,sendVa2pas_options ..⟩
  | _ =>
    cases h
    exact ⟨trivial,rfl⟩

theorem call_ok {call : WriterCall} (hc : ∀c,call = .instruction c → Encodable c)
    (h : call.Finishes w.options) : ∃bs w',w.call 2 call = .ok (bs,w') := by
  cases call with
  | instruction c =>
    have hc := hc c rfl
    have hle := hc.size_le
    have hlen := hc.addresses_le
    obtain ⟨⟨code,icache⟩,hsend⟩:=sendCode_ok hc h
    rw [Writer.call,Writer.instruction,if_neg (by omega),hsend]
    exact ⟨_,_,rfl⟩
  | _ => exact ⟨_,_,rfl⟩

theorem outputs_finishes {calls : List WriterCall} {records : List (List UInt8)}
    (hcs : ∀c,.instruction c∈calls → Encodable c) (h : outputs (Writer.call rounds) w calls = .ok records) :
    ∀call∈calls,call.Finishes w.options := by
  induction calls generalizing w records with
  | nil => simp
  | cons call calls ih =>
    rw [outputs] at h
    obtain ⟨⟨bs,w'⟩,hcall,h⟩:=bind_ok h
    obtain ⟨rest,hrest,-⟩:=bind_ok h
    obtain ⟨hfirst,hoptions⟩:=call_finishes (fun c hc => hcs c (by simp [hc])) hcall
    have hlater := ih (fun c hc => hcs c (mem_cons_of_mem _ hc)) hrest
    rw [hoptions] at hlater
    exact forall_mem_cons.mpr ⟨hfirst,hlater⟩

theorem outputs_ok {calls : List WriterCall} (hcs : ∀c,.instruction c∈calls → Encodable c)
    (h : ∀call∈calls,call.Finishes w.options) : ∃records,outputs (Writer.call 2) w calls = .ok records := by
  induction calls generalizing w with
  | nil => exact ⟨[],rfl⟩
  | cons call calls ih =>
    obtain ⟨hfirst,hlater⟩:=forall_mem_cons.mp h
    have hc : ∀c,call = .instruction c → Encodable c := fun c hc => hcs c (by simp [hc])
    obtain ⟨bs,w',hcall⟩:=call_ok hc hfirst
    rw [← (call_finishes hc hcall).2] at hlater
    obtain ⟨records,hrest⟩:=ih (fun c hc => hcs c (mem_cons_of_mem _ hc)) hlater
    refine ⟨bs::records,?_⟩
    rw [outputs,hcall,ok_bind]
    dsimp only
    rw [hrest,ok_bind]

end Writing

section RoundTrip

variable {o : WriterOptions} {calls : List WriterCall}

theorem mem_instructionsOf {c : InstructionCall} : c∈instructionsOf calls ↔ .instruction c∈calls := by
  rw [instructionsOf,mem_filterMap]
  constructor
  · rintro ⟨call,hmem,hcall⟩
    cases call with
    | instruction c' =>
      cases hcall
      exact hmem
    | _ => cases hcall
  · intro hmem
    exact ⟨_,hmem,rfl⟩

theorem finishes_iff : (∀call∈calls,call.Finishes o) ↔
    (o.requiresIcachePerInsn=false → ∀c∈instructionsOf calls,c.BelowLastPage) := by
  constructor
  · intro h hmode c hc
    exact h _ (mem_instructionsOf.mp hc) hmode
  · intro h call hcall
    cases call with
    | instruction c => exact fun hmode => h hmode c (mem_instructionsOf.mpr hcall)
    | _ => trivial

theorem trace_returns_iff {rounds : ℕ} {bytes : List UInt8} (hcs : Admissible (instructionsOf calls))
    (htrace : Writer.trace rounds o calls = .ok bytes) (e : Surroundings) :
    Returns e (fun inst => (Reader.new.read e inst).run bytes) (instructionsOf calls) ↔
      (∀call∈calls,call.OutputFits) ∧ (o.requiresIcachePerInsn=false → CodeKept (instructionsOf calls)) := by
  obtain ⟨records,hrecords,hbytes⟩:=bind_ok htrace
  cases hbytes
  obtain ⟨r,hlock,hread⟩:=lockstep_new e o
  rw [hread,hlock.returns_iff hcs hrecords (Nat.le_succ _),nil_append,sentCode_iff hcs]

/-- A trace is read back exactly if each output has data whose record size does not wrap and, in
the mode with whole pages, no instruction is on the last page and code stays as it was when its
page was sent. -/
theorem roundTrips_iff (o : WriterOptions) (calls : List WriterCall)
    (hcs : Admissible (instructionsOf calls)) :
    RoundTrips o calls ↔ (∀call∈calls,call.OutputFits) ∧ (o.requiresIcachePerInsn=false →
        (∀c∈instructionsOf calls,c.BelowLastPage) ∧ CodeKept (instructionsOf calls)) := by
  have hencodable : ∀c,.instruction c∈calls → Encodable c :=
    fun c hc => hcs.encodable c (mem_instructionsOf.mpr hc)
  constructor
  · rintro ⟨rounds,bytes,htrace,hreturns⟩
    obtain ⟨hfits,hkept⟩:=(trace_returns_iff hcs htrace
      ⟨fun _ _ => 0,fun _ => none⟩).mp (hreturns _)
    obtain ⟨records,hrecords,-⟩:=bind_ok htrace
    have hfinishes := finishes_iff.mp (outputs_finishes hencodable hrecords)
    exact ⟨hfits,fun hmode => ⟨hfinishes hmode,hkept hmode⟩⟩
  · rintro ⟨hfits,hpages⟩
    obtain ⟨records,hrecords⟩:=outputs_ok (w:=.new o) hencodable
      (finishes_iff.mpr fun hmode => (hpages hmode).1)
    have htrace : Writer.trace 2 o calls =
        .ok (Writer.header o++(records.flatten++otherHeader .traceEnd 0)) := by
      rw [Writer.trace,hrecords,ok_bind]
    exact ⟨2,_,htrace,fun e =>
      (trace_returns_iff hcs htrace e).mpr ⟨hfits,fun hmode => (hpages hmode).2⟩⟩

end RoundTrip

/-- A no-op of four bytes at the end of a page, one behind it, and one byte of output. -/
def nopTrace : List WriterCall :=
  [.instruction ⟨4094,4,[],false,false,false,true,fun _ => 0x90,fun _ => 0⟩,.output 1 (fun _ => 65) 1,
    .instruction ⟨4098,4,[64],false,false,false,true,fun _ => 0x90,fun _ => 0⟩]

theorem nopTrace_admissible : Admissible (instructionsOf nopTrace) := by
  constructor
  · intro c hc
    fin_cases hc <;> exact ⟨by decide,by decide,by decide,fun _ => rfl,by simp⟩
  · intro c hc c' hc' _
    fin_cases hc <;> fin_cases hc' <;> exact ⟨rfl,rfl⟩

theorem roundTrips_nopTrace : RoundTrips ⟨false,false,false,false⟩ nopTrace := by
  refine (roundTrips_iff _ nopTrace nopTrace_admissible).mpr ⟨?_,fun _ => ⟨?_,?_⟩⟩
  · intro call hcall
    fin_cases hcall
    · trivial
    · exact ⟨by decide,by decide⟩
    · trivial
  · intro c hc
    fin_cases hc <;> simp [InstructionCall.BelowLastPage,pageSize]
  · have hcode : ∀c∈instructionsOf nopTrace,c.code=fun _ => 0x90 := by
      intro c hc
      fin_cases hc <;> rfl
    intro c hc i _ c' hc'
    rw [hcode c hc,hcode c' (mem_of_find?_eq_some hc')]

/-- Output without data is written, and the reader's assertion fails at it. -/
theorem empty_output_lost : Admissible (instructionsOf [.output 1 (fun _ => 0) 0]) ∧
    ¬ RoundTrips ⟨false,false,false,false⟩ [.output 1 (fun _ => 0) 0] := by
  have hcs : Admissible (instructionsOf [.output 1 (fun _ => 0) 0]) :=
    ⟨fun c hc => absurd hc not_mem_nil,fun c hc => absurd hc not_mem_nil⟩
  refine ⟨hcs,?_⟩
  rintro ⟨rounds,bytes,htrace,hreturns⟩
  obtain ⟨hfits,-⟩:=(trace_returns_iff hcs htrace ⟨fun _ _ => 0,fun _ => none⟩).mp (hreturns _)
  exact absurd (hfits _ (mem_singleton_self _)).1 (by decide)

end Sniper.Sift
