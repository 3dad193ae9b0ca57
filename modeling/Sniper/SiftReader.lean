import Sniper.SiftWriter

/-!
# Reading SIFT traces

Pointers to the static part of an instruction are modelled by its address. What `new uint8_t[]`
holds is a parameter, and so are the answers of the handlers that ask the simulator. A stream that
ends before its end record is not modelled any further.
-/

namespace Sniper.Sift
open ByteParsers FallibleRuns

structure StaticInstruction where
  addr : ℕ
  size : ℕ
  data : List UInt8
  deriving DecidableEq

/-- The output parameter of `Read`, with the data addresses in use. -/
structure Instruction where
  sinst : StaticInstruction
  addresses : List UInt64
  isBranch : Bool
  taken : Bool
  isPredicate : Bool
  executed : Bool
  isa : ℕ
  deriving DecidableEq

/-- What a record can ask the simulator. -/
inductive Question where
  | instructionCount (icount : ℕ)
  | syscall (number : ℕ) (data : List UInt8)
  | newThread
  | join (thread : ℕ)
  | sync
  | fork
  | magic (a b c : ℕ)
  | emu (type : ℕ) (request : List UInt8)

/-- What the reader finds outside of its own code. -/
structure Surroundings where
  /-- the contents of the memory that `new` returns for a page -/
  uninitialised : ℕ → ℕ → UInt8
  /-- the answers to questions, for those that have a handler -/
  answer : Question → Option ℕ

structure Reader where
  initialised : Bool
  lastAddress : ℕ
  icache : ℕ → Option (ℕ → UInt8)
  scache : ℕ → Option StaticInstruction
  /-- the members `next` of the static instructions -/
  next : ℕ → Option ℕ
  vcache : ℕ → Option ℕ
  traceHasPa : Bool
  seenEnd : Bool
  lastSinst : Option ℕ
  isa : ℕ

abbrev Input := Parser Abort

def bytes (n : ℕ) : Input (List UInt8) := readBytes .outOfBounds n

def word (n : ℕ) : Input ℕ := readWord .outOfBounds n

def assert (b : Bool) : Input Unit := require .assertion b

def RecOtherType.ofCode (n : ℕ) : Option RecOtherType :=
  [icache,output,syscallRequest,syscallResponse,newThread,newThreadResponse,memoryRequest,memoryResponse,join,
    joinResponse,endResponse,icacheVariable,sync,syncResponse,logical2Physical,magicInstruction,
    magicInstructionResponse,routineChange,routineAnnounce,emu,emuResponse,fork,forkResponse,instructionCount,
    cacheOnly,isaChange,shutdown,traceEnd].find? fun t => t.code == n

theorem RecOtherType.ofCode_code (t : RecOtherType) : ofCode t.code=some t := by
  cases t <;> rfl

namespace Reader

def new : Reader where
  initialised := false
  lastAddress := 0
  icache := fun _ => none
  scache := fun _ => none
  next := fun _ => none
  vcache := fun _ => none
  traceHasPa := false
  seenEnd := false
  lastSinst := none
  isa := 0

section

variable (r : Reader)

/-- The header must have the magic number and no unknown option. -/
def initStream : Input (Bool × Reader) := do
  let magic ← word 4
  let _ ← word 4
  let options ← word 8
  if magic≠magicNumber then pure (false,{r with initialised:=true})
  else
    pure (decide (options / 16=0),{r with initialised:=true,traceHasPa:=decide (options / 8 % 2=1)})

/-- `memcpy` of `data` into the page at `base`, which is allocated if it is missing. -/
def storeCode (e : Surroundings) (icache : ℕ → Option (ℕ → UInt8)) (base offset : ℕ) (data : List UInt8) :
    ℕ → Option (ℕ → UInt8) :=
  Function.update icache base (some fun i =>
    if offset ≤ i ∧ i<offset+data.length then data.getD (i - offset) 0
    else (icache base).getD (e.uninitialised base) i)

/-- The loop of `RecOtherIcacheVariable`, with the rounds left. -/
def readVariable (e : Surroundings) : ℕ → ℕ → ℕ → (ℕ → Option (ℕ → UInt8)) → Input (ℕ → Option (ℕ → UInt8))
  | rounds,address,sizeLeft,icache =>
    if sizeLeft=0 then pure icache
    else match rounds with
    | 0 => throw .unfinished
    | rounds+1 => do
      let base := pageOf address
      let offset := offsetOf address
      let data ← bytes (min sizeLeft (pageSize - offset))
      readVariable e rounds ((base+pageSize) % 2^64) (sizeLeft - data.length)
        (storeCode e icache base offset data)

/-- The loop of `staticInfoInstruction`, with the rounds left. -/
def copyCode (icache : ℕ → Option (ℕ → UInt8)) : ℕ → ℕ → ℕ → ℕ → Except Abort (List UInt8)
  | rounds,base,offset,size =>
    if size=0 then .ok []
    else match rounds with
    | 0 => .error .unfinished
    | rounds+1 =>
      match icache base with
      | none => .error .assertion
      | some page => do
        let part := min size (pageSize - offset)
        let rest ← copyCode icache rounds ((base+pageSize) % 2^64) 0 (size - part)
        .ok ((List.range part).map (fun i => page (offset+i))++rest)

/-- Each round of the loops takes at least one byte. -/
def staticInfoInstruction (addr size : ℕ) : Except Abort StaticInstruction := do
  let data ← copyCode r.icache size (pageOf addr) (offsetOf addr) size
  .ok ⟨addr,size,data⟩

/-- The static instruction of the address: the one that followed the last instruction before,
the one in `scache`, or a new one. -/
def findStatic (addr size : ℕ) : Except Abort StaticInstruction :=
  if r.lastSinst.bind r.next=some addr then
    match r.scache addr with
    | some s => .ok s
    | none => .error .nullDereference
  else match r.scache addr with
    | some s => if s.size=size then .ok s else .error .assertion
    | none => r.staticInfoInstruction addr size

/-- The instruction is in `scache` and `m_last_sinst` points to it, and so does the `next` of
its predecessor if that pointed nowhere. -/
def linkStatic (addr : ℕ) (s : StaticInstruction) : Reader :=
  { r with
    scache := Function.update r.scache addr (some s)
    next := match r.lastSinst with
      | some l => if r.next l=none then Function.update r.next l (some addr) else r.next
      | none => r.next
    lastSinst := some addr }

def getStaticInstruction (addr size : ℕ) : Except Abort (StaticInstruction × Reader) := do
  let s ← r.findStatic addr size
  .ok (s,r.linkStatic addr s)

end

def readString : Input (List UInt8) := do
  let length ← word 2
  bytes length

/-- The handlers of these questions are asserted to exist. -/
def ask (e : Surroundings) (q : Question) : Input Unit := assert (e.answer q).isSome

/-- `size - n` in 64 bits. -/
def minus (size n : ℕ) : ℕ := (size+(2^64 - n)) % 2^64

/-- The `switch` over the type of an `Other` record after its header has been read: the
result that `Read` returns at once, or none to go on. -/
def readOther (e : Surroundings) (r : Reader) (size : ℕ) : Option RecOtherType → Input (Option Bool × Reader)
  | some .traceEnd => do
    assert (size == 0)
    pure (some false,{r with seenEnd:=true})
  | some .icache => do
    assert (size == 8+pageSize)
    let address ← word 8
    let page ← bytes pageSize
    pure (none,{r with icache:=Function.update r.icache address (some fun i => page.getD i 0)})
  | some .icacheVariable => do
    let address ← word 8
    let icache ← readVariable e (minus size 8) address (minus size 8) r.icache
    pure (none,{r with icache})
  | some .logical2Physical => do
    assert (size == 16)
    let vp ← word 8
    let pp ← word 8
    pure (none,{r with vcache:=Function.update r.vcache vp (some pp)})
  | some .instructionCount => do
    assert (size == 4)
    let _ ← word 4
    pure (none,r)
  | some .cacheOnly => do
    assert (size == 18)
    let _ ← word 1
    let _ ← word 1
    let _ ← word 8
    let _ ← word 8
    pure (none,r)
  | some .output => do
    assert (decide (1<size))
    let _ ← word 1
    let _ ← bytes (size - 1)
    pure (none,r)
  | some .syscallRequest => do
    assert (decide (2<size))
    let number ← word 2
    let data ← bytes (size - 2)
    ask e (.syscall number data)
    pure (none,r)
  | some .newThread => do
    assert (size == 0)
    ask e .newThread
    pure (none,r)
  | some .join => do
    assert (size == 4)
    let thread ← word 4
    ask e (.join thread)
    pure (none,r)
  | some .sync => do
    assert (size == 0)
    pure (none,r)
  | some .fork => do
    assert (size == 0)
    ask e .fork
    pure (none,r)
  | some .magicInstruction => do
    assert (size == 24)
    let a ← word 8
    let b ← word 8
    let c ← word 8
    pure (if (e.answer (.magic a b c)).getD a=42 then some true else none,r)
  | some .emu => do
    assert (decide (size≤10))
    let _ ← word 2
    let _ ← bytes (minus size 2)
    pure (none,r)
  | some .routineChange => do
    assert (size == 25)
    let _ ← word 1
    let _ ← word 8
    let _ ← word 8
    let _ ← word 8
    pure (none,r)
  | some .routineAnnounce => do
    let _ ← word 8
    let _ ← readString
    let _ ← readString
    let _ ← word 8
    let _ ← word 4
    let _ ← word 4
    let _ ← readString
    pure (none,r)
  | some .isaChange => do
    assert (size == 4)
    let isa ← word 4
    pure (none,{r with isa})
  | _ => do
    let _ ← bytes size
    pure (none,r)

def readRecord (e : Surroundings) (r : Reader) : Input (Option Bool × Reader) := do
  let _ ← word 1
  let type ← word 1
  let size ← word 4
  r.readOther e size (RecOtherType.ofCode type)

/-- The bit fields of an instruction record; the address comes from the record or is the
one behind the last instruction. -/
structure Fields where
  addr : ℕ
  size : ℕ
  numAddresses : ℕ
  isBranch : Bool
  taken : Bool
  isPredicate : Bool
  executed : Bool
  deriving DecidableEq

def bit (x i : ℕ) : Bool := decide (x / 2^i % 2=1)

def readFields (lastAddress : ℕ) (byte : UInt8) : Input Fields :=
  if byte.toNat % 16≠0 then do
    let x ← word 1
    pure ⟨lastAddress,x % 16,x / 16 % 4,bit x 6,bit x 7,false,true⟩
  else do
    let x ← word 1
    let flags ← word 1
    let addr ← word 8
    pure ⟨addr,x / 16,flags % 4,bit flags 2,bit flags 3,bit flags 4,bit flags 5⟩

/-- The instruction for its fields and data addresses, with the reader after it. -/
def deliver (r : Reader) (f : Fields) (addresses : List UInt64) : Except Abort (Instruction × Reader) := do
  let (sinst,r) ← { r with
    lastAddress := (f.addr+f.size) % 2^64 }.getStaticInstruction f.addr f.size
  .ok (⟨sinst,addresses,f.isBranch,f.taken,f.isPredicate,f.executed,r.isa⟩,r)

/-- An instruction record. The array for its data addresses has two entries. -/
def readInstruction (r : Reader) (byte : UInt8) : Input (Instruction × Reader) := do
  let f ← readFields r.lastAddress byte
  require .outOfBounds (decide (f.numAddresses≤2))
  let addresses ← readMany (UInt64.ofNat <$> word 8) f.numAddresses
  liftM (r.deliver f addresses)

def readLoop (e : Surroundings) : ℕ → Instruction → Reader → Input (Bool × Instruction × Reader)
  | 0,_,_ => throw .unfinished
  | rounds+1,inst,r =>
    if r.seenEnd then pure (true,inst,r)
    else do
      let byte ← peek .outOfBounds
      if byte=0 then
        let (result,r) ← r.readRecord e
        match result with
        | some b => pure (b,inst,r)
        | none => readLoop e rounds inst r
      else
        let (inst,r) ← r.readInstruction byte
        pure (true,inst,r)

/-- `Reader::Read`. Each round of its loop takes at least one byte of the stream. -/
def read (e : Surroundings) (inst : Instruction) (r : Reader) : Input (Bool × Instruction × Reader) := do
  let (ok,r) ← if r.initialised then pure (true,r) else r.initStream
  if ok then
    let input ← get
    readLoop e (input.length+1) inst r
  else pure (false,inst,r)

end Reader

end Sniper.Sift
