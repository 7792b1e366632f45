import DexImage.IndexRemap
/-! # Pools

A pool owns every item of one kind, and everything else refers to those items by position.
Beside each item stands the usage recorded for it by the last reachability scan. Comparison of
pools looks at the items alone.
-/

namespace DexImage

/-- An item and the markers recorded for it. -/
structure PoolEntry (α : Type) where
  item : α
  usage : Usage
deriving Repr

structure Pool (α : Type) where
  entries : Array (PoolEntry α)
deriving Repr

namespace Pool

variable {α : Type}

def empty : Pool α := ⟨#[]⟩

def items (pool : Pool α) : List α := pool.entries.toList.map PoolEntry.item

def usages (pool : Pool α) : List Usage := pool.entries.toList.map PoolEntry.usage

def ofList (items : List α) : Pool α := ⟨(items.map fun item => ⟨item, .unmarked⟩).toArray⟩

instance [BEq α] : BEq (Pool α) := ⟨fun a b => a.items == b.items⟩

def size (pool : Pool α) : Nat := pool.entries.size

def isEmpty (pool : Pool α) : Bool := pool.entries.isEmpty

def get? (pool : Pool α) (index : UInt32) : Option α :=
  (pool.entries[index.toNat]?).map PoolEntry.item

def usage? (pool : Pool α) (index : UInt32) : Option Usage :=
  (pool.entries[index.toNat]?).map PoolEntry.usage

/-- The item at an index, where the target has to exist. -/
def require (pool : Pool α) (index : UInt32) : Result α :=
  match pool.get? index with
  | some item => .ok item
  | none => .error (Fault.of (.indexBeyondPool index pool.size))

/-- The index that the next appended item gets. -/
def nextIndex (pool : Pool α) : UInt32 := pool.size.toUInt32

def push (pool : Pool α) (item : α) : Pool α := ⟨pool.entries.push ⟨item, .unmarked⟩⟩

/-- Applies an edit to the item at an index, if there is one. -/
def modify (pool : Pool α) (index : UInt32) (edit : α → α) : Pool α :=
  ⟨pool.entries.modify index.toNat fun entry => { entry with item := edit entry.item }⟩

/-- Applies an edit to every item. -/
def map (pool : Pool α) (edit : α → α) : Pool α :=
  ⟨pool.entries.map fun entry => { entry with item := edit entry.item }⟩

/-- Applies an edit that carries a state to every item, first to last. -/
def mapM {σ : Type} (pool : Pool α) (edit : α → StateM σ α) : StateM σ (Pool α) := do
  let entries ← pool.entries.mapM fun entry => do
    let item ← edit entry.item
    return { entry with item }
  return ⟨entries⟩

/-- The first index whose item satisfies a condition. -/
def position? (pool : Pool α) (condition : α → Bool) : Option UInt32 :=
  (pool.entries.findIdx? fun entry => condition entry.item).map Nat.toUInt32

def find? [BEq α] (pool : Pool α) (item : α) : Option UInt32 := pool.position? (· == item)

/-- The index of an equal item and the pool, to which `item` is appended if there is none. -/
def intern [BEq α] (pool : Pool α) (item : α) : UInt32 × Pool α :=
  match pool.find? item with
  | some index => (index, pool)
  | none => (pool.nextIndex, pool.push item)

/-- Adds markers to an item's usage; says whether it had none before. -/
def mark (pool : Pool α) (index : UInt32) (usage : Usage) : Result (Bool × Pool α) :=
  match pool.usage? index with
  | some before =>
    let entries := pool.entries.modify index.toNat fun entry =>
      { entry with usage := before.union usage }
    .ok (before.isEmpty, ⟨entries⟩)
  | none => .error (Fault.of (.indexBeyondPool index pool.size))

def clearUsage (pool : Pool α) : Pool α :=
  ⟨pool.entries.map fun entry => { entry with usage := .unmarked }⟩

def truncate (pool : Pool α) (size : Nat) : Pool α := ⟨pool.entries.take size⟩

/-- The table that counts through the used entries in order and drops the others. -/
def usedTable (entries : Array (PoolEntry α)) : IndexRemap :=
  let step (state : Array (Option UInt32) × UInt32) (entry : PoolEntry α) :=
    if entry.usage.isEmpty then (state.1.push none, state.2)
    else (state.1.push (some state.2), state.2 + 1)
  ⟨(entries.foldl step (#[], 0)).1⟩

/-- Drops every item without a recorded usage and keeps the order of the others. -/
def compact (pool : Pool α) : IndexRemap × Pool α :=
  (usedTable pool.entries, ⟨pool.entries.filter fun entry => !entry.usage.isEmpty⟩)

/-- The inverse table of an order on a pool of `table.size` items, if the order is one. -/
def orderTable (order : List UInt32) (table : Array (Option UInt32)) : Result IndexRemap :=
  go order 0 table
where
  go : List UInt32 → UInt32 → Array (Option UInt32) → Result IndexRemap
    | [], _, table => .ok ⟨table⟩
    | old :: rest, new, table =>
      match table[old.toNat]? with
      | none => .error (Fault.of (.orderBeyondPool old table.size))
      | some (some _) => .error (Fault.of (.orderRepeats old))
      | some none => go rest (new + 1) (table.set! old.toNat (some new))

/-- Rearranges the pool so that position `new` holds the item that was at `order[new]`. Items
that the order does not name are dropped. -/
def reorder (pool : Pool α) (order : List UInt32) : Result (IndexRemap × Pool α) := do
  let remap ← orderTable order (Array.replicate pool.size none)
  return (remap, ⟨(order.filterMap fun old => pool.entries[old.toNat]?).toArray⟩)

end Pool
end DexImage
