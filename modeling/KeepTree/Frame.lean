import KeepTree.Store

/-!
# Frames

A frame is one activation of a definition: its arguments, the table that caches its values, the
names it keeps, and the number of the loop iteration it is in. Frames name the frame below them
by `FrameId`; a frame is alive while another frame links to it or a stack holds it.
-/

namespace KeepTree

/-- Names a frame of a pool. A slot that is used again gives its next frame a later generation. -/
structure FrameId where
  index : Nat
  generation : Nat
  deriving DecidableEq

/-- One activation of a definition. -/
structure Frame where
  definition : DefId := 0
  /-- The definition whose chain of super calls the frame continues; `none` starts a new call. -/
  continues : Option DefId := none
  parameters : List String := []
  arguments : List Argument := []
  /-- The table of values cached in this frame. -/
  cache : TableId
  /-- The map of the names kept in this frame. -/
  keeps : KeepMapId
  /-- The tables of names kept in a container, by container. -/
  containers : Dictionary String TableId := .empty
  /-- The durable table of the site the frame runs in. -/
  siteTable : Option TableId := none
  site : Option DefId := none
  /-- The frame below. -/
  previous : Option FrameId := none
  /-- The number of frames above this one. -/
  links : Nat := 0
  /-- The number of stacks that hold this frame, on top or set aside. -/
  pins : Nat := 0
  /-- The loop iteration the frame is in. -/
  iteration : Option Nat := none
  /-- The number of the next iteration of any loop in this frame. -/
  nextIteration : Nat := 0
  /-- The number of the push that made the frame. -/
  state : Nat := 0

/-- A frame cannot be cleared while something refers to it. -/
structure InUse where
  definition : DefId
  links : Nat
  pins : Nat
  deriving DecidableEq

def InUse.message (e : InUse) : String :=
  "clearing scope for #" ++ Nat.repr e.definition ++ " with ref_count " ++ Nat.repr e.links ++
    " and " ++ Nat.repr e.pins ++ " pins"

namespace Frame

/-! ## 1. Reading a frame -/

/-- No frame links to this one and no stack holds it. -/
def isUnreferenced (f : Frame) : Bool := f.links == 0 && f.pins == 0

/-- The key of `key` in the current iteration. -/
def slotKey (f : Frame) (key : String) : String := DottedName.inLoop key f.iteration

/-- The entry cached for `key` in the current iteration. -/
def cached? (f : Frame) (store : Store) (key : String) : Option Entry :=
  store.get? f.cache (f.slotKey key)

/-- Where `name` is kept. -/
def keepPointer? (f : Frame) (store : Store) (name : String) : Option Pointer :=
  store.pointer? f.keeps name

/-- The position of a parameter; of parameters with one name the first. -/
def parameterIndex? (f : Frame) (name : String) : Option Nat :=
  f.parameters.findIdx? (· == name)

/-! ## 2. Iterations -/

/-- Start the next iteration. -/
def startIteration (f : Frame) : Nat × Frame :=
  (f.nextIteration,
    { f with iteration := some f.nextIteration, nextIteration := f.nextIteration + 1 })

/-! ## 3. Clearing -/

/-- As in a frame that was never used, but for the definition and the tables. -/
def IsClear (f : Frame) : Prop :=
  f = { definition := f.definition, cache := f.cache, keeps := f.keeps }

/-- Forget everything but the definition, the tables and the counts. -/
def reset (f : Frame) : Frame :=
  { f with
    continues := none
    parameters := []
    arguments := []
    containers := .empty
    siteTable := none
    site := none
    previous := none
    iteration := none
    nextIteration := 0
    state := 0 }

/-- **Nothing is left in a frame that is reset while it is not in use.** -/
theorem isClear_reset {f : Frame} (h : f.isUnreferenced = true) : f.reset.IsClear := by
  obtain ⟨hlinks, hpins⟩ : f.links = 0 ∧ f.pins = 0 := by simpa [isUnreferenced] using h
  simp [IsClear, reset, hlinks, hpins]

theorem IsClear.withTables {f : Frame} (h : f.IsClear) (cache : TableId) (keeps : KeepMapId) :
    IsClear { f with cache, keeps } :=
  congrArg (fun g : Frame => ({ g with cache, keeps } : Frame)) h

end Frame

/-- A frame that can be used again. -/
structure ClearFrame where
  frame : Frame
  isClear : frame.IsClear

/-- Clear a frame for its next use. A frame that is in use is not cleared. The tables are replaced when
    the frame is used again (`ClearFrame.withTables`), and are not emptied: others may still read
    them. -/
def Frame.clear (f : Frame) : Except InUse ClearFrame :=
  if h : f.isUnreferenced = true then .ok ⟨f.reset, f.isClear_reset h⟩
  else .error ⟨f.definition, f.links, f.pins⟩

namespace ClearFrame

/-- A frame that was never used. -/
def unused (cache : TableId) (keeps : KeepMapId) : ClearFrame := ⟨{ cache, keeps }, rfl⟩

/-- Let a cleared frame have these tables in place of those it had. -/
def withTables (f : ClearFrame) (cache : TableId) (keeps : KeepMapId) : ClearFrame :=
  ⟨{ f.frame with cache, keeps }, f.isClear.withTables cache keeps⟩

end ClearFrame

namespace Frame

/-! ## 4. Copying -/

/-- The table that stands for `id` in a copy of `source`: the copy of its cache or container, or
    the table itself when it is not one of the frame's own. -/
def rebaseTable (source : Frame) (cache : TableId) (containers : Dictionary String TableId)
    (id : TableId) : TableId :=
  if id = source.cache then cache
  else
    match source.containers.entries.find? (fun entry => entry.2 == id) with
    | some (name, _) => (containers.get? name).getD id
    | none => id

/-- A copy of a frame, held by nothing yet. A sharing copy has the same tables; another one has
    copies of them, and what the frame keeps in its own tables the copy keeps in the copies. -/
def copy (source : Frame) (sharing : Bool) (store : Store) : Frame × Store :=
  if sharing then ({ source with links := 0, pins := 0 }, store)
  else
    let (cache, store) := store.copyTable source.cache
    let (containers, store) := store.copyTables source.containers
    let (keeps, store) := store.newKeepMap <| (store.keepMap source.keeps).map fun pointer =>
      { pointer with table := rebaseTable source cache containers pointer.table }
    ({ source with cache, keeps, containers, links := 0, pins := 0 }, store)

end Frame

/-- Copy a frame onto a cleared one, all but the counts. -/
def ClearFrame.copyOnto (target : ClearFrame) (source : Frame) (sharing : Bool) (store : Store) :
    Frame × Store :=
  let (copy, store) := source.copy sharing store
  ({ copy with links := target.frame.links, pins := target.frame.pins }, store)

end KeepTree
