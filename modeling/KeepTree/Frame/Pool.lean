import KeepTree.Frame

/-!
# Pools of frames

The frames of a family of stacks live in the numbered slots of one pool. A frame is released when
nothing refers to it any more, and with it every frame below that only it referred to. A released
slot can be used again, under the next generation, so an id of the old frame stays dead.

* `vacant`, `alloc` -- the frame that is used next, that of the slot released last or one of a new
  slot; put it into the pool;
* `pin`, `link` -- a stack holds the frame; a frame sits on it;
* `unpin` -- a stack lets go of the frame, and frames become free down the chain;
* `chain` -- the frames from one frame down to the bottom.
-/

namespace KeepTree

/-- A place for a frame. -/
inductive Slot where
  | live (generation : Nat) (frame : Frame)
  /-- Free: the frame was cleared, and has this generation when it is used again. -/
  | retired (generation : Nat) (frame : ClearFrame)

namespace Slot

def generation : Slot → Nat
  | .live generation _ => generation
  | .retired generation _ => generation

/-- The frame of this generation. -/
def frame? (generation : Nat) : Slot → Option Frame
  | .live g frame => if g = generation then some frame else none
  | .retired _ _ => none

end Slot

/-- The frames of one family of stacks. -/
structure Pool where
  slots : Array Slot := #[]
  /-- Slots to use again, the last one released first. -/
  free : List Nat := []
  /-- Released slots are used again. -/
  recycle : Bool
  /-- The number of live frames. -/
  live : Nat := 0

namespace Pool

/-! ## 1. Reading and changing one frame -/

/-- The frame, if it is alive. -/
def get? (pool : Pool) (id : FrameId) : Option Frame :=
  pool.slots[id.index]?.bind (Slot.frame? id.generation)

def contains (pool : Pool) (id : FrameId) : Bool := (pool.get? id).isSome

/-- Put `frame` in place of a live frame. -/
def set (pool : Pool) (id : FrameId) (frame : Frame) : Pool :=
  { pool with slots := pool.slots.setIfInBounds id.index (.live id.generation frame) }

/-- Change a frame, if it is alive. -/
def modify (pool : Pool) (id : FrameId) (f : Frame → Frame) : Pool :=
  match pool.get? id with
  | some frame => pool.set id (f frame)
  | none => pool

/-- A stack holds the frame. -/
def pin (pool : Pool) (id : FrameId) : Pool :=
  pool.modify id fun frame => { frame with pins := frame.pins + 1 }

/-- A frame sits on the frame. -/
def link (pool : Pool) (id : FrameId) : Pool :=
  pool.modify id fun frame => { frame with links := frame.links + 1 }

/-! ## 2. New frames -/

/-- Where a new frame was put. -/
structure Placed where
  id : FrameId
  /-- The slot was used before. -/
  recycled : Bool

/-- The frame that is used next, with these tables: the cleared one in the slot released last, or one
    that was never used. -/
def vacant (pool : Pool) (cache : TableId) (keeps : KeepMapId) : ClearFrame :=
  match pool.free.head?.bind (pool.slots[·]?) with
  | some (.retired _ frame) => frame.withTables cache keeps
  | _ => .unused cache keeps

/-- Put a frame into the pool: into the slot released last, or into a new one. -/
def alloc (pool : Pool) (frame : Frame) : Placed × Pool :=
  match pool.free with
  | index :: free =>
    let generation := pool.slots[index]?.elim 0 Slot.generation
    (⟨⟨index, generation⟩, true⟩,
      { pool with
        slots := pool.slots.setIfInBounds index (.live generation frame)
        free
        live := pool.live + 1 })
  | [] =>
    (⟨⟨pool.slots.size, 0⟩, false⟩,
      { pool with slots := pool.slots.push (.live 0 frame), live := pool.live + 1 })

/-! ## 3. Letting go -/

/-- Free the slot of a frame that was cleared. -/
def retire (pool : Pool) (id : FrameId) (frame : ClearFrame) : Pool :=
  { pool with
    slots := pool.slots.setIfInBounds id.index (.retired (id.generation + 1) frame)
    free := if pool.recycle then id.index :: pool.free else pool.free
    live := pool.live - 1 }

/-- Free a frame, and the frames below as long as nothing else refers to them; how many were
    freed. Every step frees a live slot, so the number of slots is steps enough. -/
def release : Nat → FrameId → Pool → Nat × Pool
  | 0, _, pool => (0, pool)
  | steps + 1, id, pool =>
    match pool.get? id with
    | none => (0, pool)
    | some frame =>
      match frame.clear with
      | .error _ => (0, pool) -- no such frame is released
      | .ok cleared =>
        let pool := pool.retire id cleared
        match frame.previous with
        | none => (1, pool)
        | some previous =>
          match pool.get? previous with
          | none => (1, pool)
          | some below =>
            let below := { below with links := below.links - 1 }
            let pool := pool.set previous below
            if below.isUnreferenced then
              let (freed, pool) := release steps previous pool
              (freed + 1, pool)
            else (1, pool)

/-- A stack lets go of a frame; how many frames were freed by that. -/
def unpin (pool : Pool) (id : FrameId) : Nat × Pool :=
  match pool.get? id with
  | none => (0, pool)
  | some frame =>
    let frame := { frame with pins := frame.pins - 1 }
    let pool := pool.set id frame
    if frame.isUnreferenced then release pool.slots.size id pool else (0, pool)

/-- Let go of several frames in turn; how many frames were freed in all. -/
def unpinAll (pool : Pool) : List FrameId → Nat × Pool
  | [] => (0, pool)
  | id :: rest =>
    let (freed, pool) := pool.unpin id
    let (more, pool) := pool.unpinAll rest
    (freed + more, pool)

/-! ## 4. Chains -/

/-- At most `steps` frames from `id` down, with their ids. -/
def chainFrom (pool : Pool) : Nat → Option FrameId → List (FrameId × Frame)
  | 0, _ => []
  | _ + 1, none => []
  | steps + 1, some id =>
    match pool.get? id with
    | none => []
    | some frame => (id, frame) :: pool.chainFrom steps frame.previous

/-- The frames from `top` down to the bottom. A frame stands once in a chain, so there are no
    more of them than slots. -/
def chain (pool : Pool) (top : Option FrameId) : List (FrameId × Frame) :=
  pool.chainFrom pool.slots.size top

end Pool

end KeepTree
