import DexImage.Item.Ids
import DexImage.RangeMap
/-! # Try tables

The ranges of a method's code that are covered by exception handlers. A range names its handler
list by slot; in the encoding it names it by the offset of the list from the start of all lists.
-/

namespace DexImage

inductive ExceptionHandler where
  | typed (type : IdRef .typeId) (address : UInt32)
  | catchAll (address : UInt32)
deriving DecidableEq, Repr

namespace ExceptionHandler

def address : ExceptionHandler → UInt32
  | typed _ address | catchAll address => address

def isCatchAll : ExceptionHandler → Bool
  | typed .. => false
  | catchAll _ => true

end ExceptionHandler

/-- The handlers of one range: typed ones in order of preference, then at most one catch-all. -/
structure HandlerList where
  handlers : List ExceptionHandler
deriving DecidableEq, Repr

namespace HandlerList

def typed (list : HandlerList) : List ExceptionHandler :=
  list.handlers.filter fun handler => !handler.isCatchAll

def catchAlls (list : HandlerList) : List ExceptionHandler :=
  list.handlers.filter ExceptionHandler.isCatchAll

/-- Typed handlers keep their order and catch-alls come last. -/
def normalized (list : HandlerList) : HandlerList := ⟨list.typed ++ list.catchAlls⟩

def ofHandlers (handlers : List ExceptionHandler) : HandlerList := (HandlerList.mk handlers).normalized

/-- The address of the first catch-all. -/
def catchAll? (list : HandlerList) : Option UInt32 := list.catchAlls.head?.map (·.address)

/-- The number of typed handlers, negative or zero when a catch-all follows them. -/
def sizeField (list : HandlerList) : Int32 :=
  let typed := Int32.ofNat list.typed.length
  if list.catchAll?.isSome then -typed else typed

def encodeTyped : List ExceptionHandler → Result Bytes
  | [] => .ok []
  | .typed type address :: rest => do
    let type ← type.required
    return Leb128.encodeUInt32 type ++ Leb128.encodeUInt32 address ++ (← encodeTyped rest)
  | .catchAll _ :: rest => encodeTyped rest

def typedSize : ExceptionHandler → Nat
  | .typed type address => Leb128.lengthUInt32 type.raw + Leb128.lengthUInt32 address
  | .catchAll _ => 0

instance : Encodable HandlerList where
  encodedSize list :=
    Leb128.lengthInt32 list.sizeField + total typedSize list.handlers
      + (list.catchAll?.map Leb128.lengthUInt32).getD 0
  encode list := do
    if 1 < list.catchAlls.length then throw (Fault.of (.catchAllsRepeated list.catchAlls.length))
    return Leb128.encodeInt32 list.sizeField ++ (← encodeTyped list.handlers)
      ++ (list.catchAll?.map Leb128.encodeUInt32).getD []
  refresh list := list.normalized
  isDirty _ := false

instance : Referring HandlerList where
  uses list := list.handlers.filterMap fun
    | .typed type _ => type.use? .caught
    | .catchAll _ => none
  visit visitor list := do
    return ⟨← visitAll (fun
      | .typed type address => return .typed (← type.visit visitor .caught) address
      | .catchAll address => pure (.catchAll address)) list.handlers⟩

def decode : Decoder HandlerList := do
  let size ← Decoder.sleb128
  let typed ← Reading.collect size.toInt.natAbs fun _ => do
    let type ← Decoder.uleb128
    return .typed (.of type) (← Decoder.uleb128)
  if size ≤ 0 then return ⟨typed ++ [.catchAll (← Decoder.uleb128)]⟩ else return ⟨typed⟩

end HandlerList

/-- A covered range of code units and the slot of its handler list. -/
structure TryItem where
  start : UInt32
  count : UInt16
  handler : Nat
deriving DecidableEq, Repr

/-- Whether the range is not empty, ends within the address space and contains an address. -/
def TryItem.covers (item : TryItem) (address : UInt32) : Bool :=
  0 < item.count && item.start.toNat + item.count.toNat < UInt32.size && item.start ≤ address
    && address.toNat < item.start.toNat + item.count.toNat

/-- Where the range ends, if it ends within the address space. -/
def TryItem.stop? (item : TryItem) : Option UInt32 :=
  if item.start.toNat + item.count.toNat < UInt32.size then some (item.start + item.count.toUInt32) else none

/-- Enters the slot of the handler list for the range, unless no address lies in it. -/
def TryItem.enter {μ : Type} [RangeMap μ Nat] (item : TryItem) (slots : μ) : μ :=
  if 0 < item.count then
    match item.stop? with
    | some stop => RangeMap.insert slots item.start stop item.handler
    | none => slots
  else slots

structure TryTable where
  tries : List TryItem
  handlers : TrackedList HandlerList
deriving BEq, Repr

namespace TryTable

def empty : TryTable := ⟨[], .empty⟩

def isEmpty (table : TryTable) : Bool := table.tries.isEmpty

/-- Adds a covered range; an equal handler list that is already there is shared. -/
def add (table : TryTable) (start : UInt32) (count : UInt16) (list : HandlerList) : TryTable :=
  match table.handlers.items.findIdx? (· == list) with
  | some slot => { table with tries := table.tries ++ [⟨start, count, slot⟩] }
  | none =>
    { tries := table.tries ++ [⟨start, count, table.handlers.length⟩]
      handlers := table.handlers.push list }

def clear (table : TryTable) : TryTable := ⟨[], table.handlers.clear⟩

/-- The slots of the handler lists by address, each range over those before it. -/
def slotMap (μ : Type) [RangeMap μ Nat] (table : TryTable) : μ :=
  table.tries.foldl (fun slots item => item.enter slots) RangeMap.empty

/-- The handler list for an address, found through a map of the given kind. -/
def lookup? (μ : Type) [RangeMap μ Nat] (table : TryTable) (address : UInt32) : Option HandlerList :=
  (RangeMap.get? (table.slotMap μ) address).bind table.handlers.get?

/-- The handler list for an address. -/
def handlersAt? (table : TryTable) (address : UInt32) : Option HandlerList :=
  table.lookup? (IntervalMap Nat) address

/-- The offset of a handler list from the start of the encoded lists. -/
def handlerOffset (table : TryTable) (slot : Nat) : Nat :=
  Bytes.varCountLength table.handlers.length + table.handlers.offsetOf slot

/-- Whether some range names a slot. -/
def names (table : TryTable) (slot : Nat) : Bool := table.tries.any fun item => item.handler == slot

/-- Numbers the slots that are used, from `next` on; the others get slot zero. -/
def renumbering : (next : Nat) → (used : List Bool) → List Nat
  | _, [] => []
  | next, true :: rest => next :: renumbering (next + 1) rest
  | next, false :: rest => 0 :: renumbering next rest

/-- Drops the handler lists that no range names and renumbers the others. A range that named no
list is given slot zero. -/
def pruned (table : TryTable) : TryTable :=
  let used := (List.range table.handlers.length).map table.names
  if used.all id then table
  else
    let slots := renumbering 0 used
    let kept := (table.handlers.items.zip used).filter Prod.snd
    { tries := table.tries.map fun item => { item with handler := slots.getD item.handler 0 }
      handlers := ⟨kept.map Prod.fst, true⟩ }

def encodeTries (table : TryTable) : (index : Nat) → List TryItem → Result Bytes
  | _, [] => .ok []
  | index, item :: rest => do
    if table.handlers.length ≤ item.handler then
      throw (Fault.of (.handlerMissing index item.handler table.handlers.length))
    let offset := table.handlerOffset item.handler
    if 0xffff < offset then throw (Fault.of (.handlerOffsetTooWide offset))
    return Bytes.ofUInt32 item.start ++ Bytes.ofUInt16 item.count
      ++ Bytes.ofUInt16 offset.toUInt16 ++ (← table.encodeTries (index + 1) rest)

instance : Encodable TryTable where
  encodedSize table :=
    8 * table.tries.length + Bytes.varCountLength table.handlers.length
      + encodedSize table.handlers
  encode table := do
    return (← table.encodeTries 0 table.tries) ++ Bytes.ofVarCount table.handlers.length
      ++ (← encode table.handlers)
  refresh table :=
    let pruned := table.pruned
    { tries := pruned.tries.mergeSort fun a b => a.start ≤ b.start
      handlers := refresh pruned.handlers }
  isDirty table := isDirty table.handlers

instance : Referring TryTable where
  uses table := table.handlers.items.flatMap uses
  visit visitor table := do
    return { table with handlers := ⟨← visitAll (visit visitor) table.handlers.items, true⟩ }

/-- Takes over another table with its caught types translated. On a fault nothing is taken over. -/
def merge {τ : Type} (translator : Translator τ) (other : TryTable) :
    StateM τ (Result TryTable) := do
  let outcome ← translate translator other
  return match outcome.fault? with
    | some fault => .error fault
    | none => .ok { outcome.value with handlers := outcome.value.handlers.markDirty }

/-- Replaces the offsets of handler lists by their slots. -/
def resolveOffsets (offsets : List Nat) :
    (index : Nat) → List (UInt32 × UInt16 × UInt16) → Result (List TryItem)
  | _, [] => .ok []
  | index, (start, count, offset) :: rest => do
    let some slot := offsets.findIdx? (· == offset.toNat)
      | throw (Fault.of (.handlerOffsetUnknown index offset.toNat))
    return ⟨start, count, slot⟩ :: (← resolveOffsets offsets (index + 1) rest)

/-- Reads a table of `count` ranges and the handler lists that follow them. -/
def decode (count : UInt16) : Decoder TryTable := do
  let ranges ← Reading.collect count.toNat fun _ => do
    let start ← Decoder.u4
    let count ← Decoder.u2
    return (start, count, ← Decoder.u2)
  let base ← Decoder.position
  let listCount ← Decoder.uleb128
  let lists ← Reading.collect listCount.toNat fun index => do
    let position ← Decoder.position
    return (position - base, ← Reading.within (.nth "catch handler" index) HandlerList.decode)
  let tries ← Reading.ofResult (resolveOffsets (lists.map Prod.fst) 0 ranges)
  return { tries, handlers := refresh (.ofList (lists.map Prod.snd)) }

end TryTable
end DexImage
