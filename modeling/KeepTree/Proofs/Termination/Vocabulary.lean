import KeepTree.Proofs.Durable.Upkeep

/-!
# Vocabularies

Whatever an evaluation comes to call is written somewhere: in a definition, in an argument of a frame,
or in the call that it began with. A `Vocabulary` lists the names and the argument lists that are
written. They are finitely many, and nothing that an evaluation does adds to them:

* `Upkeep.speaking`, `speaking_open` -- **what is kept is kept under names of the vocabulary**.
-/

namespace KeepTree

open List

variable {V : Vocabulary} {ns : Namespace} {id : DefId} {d : Definition}
  {inside owner scope : Option DefId} {name : String} {arguments : List Argument} {next : Bound}

/-! ## 1. What is written -/

mutual
/-- The calls that are written in a body. -/
def Body.calls : Body → List Call
  | .ref call => [call]
  | .concat parts => Body.allCalls parts
  | .list items => Body.allCalls items
  | .each _ range inner => range.calls ++ inner.calls
  | _ => []

def Body.allCalls : List Body → List Call
  | [] => []
  | body :: rest => body.calls ++ Body.allCalls rest
end

/-- The calls that tell what a definition stands for. -/
def Kind.calls : Kind → List Call
  | .collection elements => elements
  | .aliasOf target => [target]
  | .collectionElement call => [call]
  | _ => []

/-- The calls that are written in a definition. -/
def Definition.calls (d : Definition) : List Call := d.kind.calls ++ d.body.calls

/-- The calls that are written in a namespace. -/
def Namespace.calls (ns : Namespace) : List Call := ns.definitions.toList.flatMap Definition.calls

/-- Names, and lists of arguments. -/
structure Vocabulary where
  names : List String
  lists : List (List Argument)

namespace Vocabulary

/-- The call is of the vocabulary. -/
def Has (V : Vocabulary) (call : Call) : Prop :=
  call.name ∈ V.names ∧ call.arguments ∈ V.lists

/-- If the argument is a call, it is of the vocabulary. -/
def Allows (V : Vocabulary) (a : Argument) : Prop :=
  ∀ name arguments, a = .call name arguments → V.Has ⟨name, arguments⟩

theorem allows_missing : V.Allows .missing := nofun

/-- Calls among the arguments are of the vocabulary. -/
structure Closed (V : Vocabulary) : Prop where
  nil_mem : [] ∈ V.lists
  allows : ∀ {arguments a}, arguments ∈ V.lists → a ∈ arguments → V.Allows a

/-- Besides, argument lists are the same as themselves. -/
structure Proper (V : Vocabulary) : Prop extends V.Closed where
  same : ∀ {arguments}, arguments ∈ V.lists → sameArguments arguments arguments = true

/-- What is written in a namespace is of the vocabulary, but for bodies. -/
structure Covers (V : Vocabulary) (ns : Namespace) : Prop where
  kind : ∀ {id d call}, ns.get? id = some d → call ∈ d.kind.calls → V.Has call
  keeps : ∀ {id d keep}, ns.get? id = some d → keep ∈ d.keeps → keep.target ∈ V.names
  durable : ∀ {id d}, ns.get? id = some d → d.isGlobal = true → d.fullName ∈ V.names

/-- What is written in a namespace is of the vocabulary. -/
structure Spans (V : Vocabulary) (ns : Namespace) : Prop extends V.Covers ns where
  body : ∀ {id d call}, ns.get? id = some d → call ∈ d.body.calls → V.Has call

theorem Closed.call (h : V.Closed) {call : Call} (hcall : V.Has call) :
    ∀ a ∈ call.arguments, V.Allows a :=
  fun _ ha => h.allows hcall.2 ha

end Vocabulary

/-! ## 2. Arguments of frames -/

namespace Namespace

theorem bindName_arguments (h : ns.bindName inside name arguments = .ok (some next)) :
    next.arguments = arguments := by
  unfold bindName at h
  cases hfd : ns.lookupFrom inside name with
  | error gap => simp [hfd, Except.map] at h
  | ok found =>
    cases found with
    | none => simp [hfd, Except.map] at h
    | some id =>
      simp only [hfd, Except.map, Option.map_some, Except.ok.injEq, Option.some.injEq] at h
      rw [← h]

theorem element?_has (hns : V.Covers ns) {index : Nat} {collection : DefId} {call : Call}
    (h : ns.element? index collection = some (owner, call)) : V.Has call := by
  unfold element? at h
  split at h
  · cases h
  · rename_i d hd
    split at h
    · rename_i elements hkind
      obtain ⟨found, hfd, heq⟩ := Option.map_eq_some_iff.mp h
      obtain ⟨_, rfl⟩ := Prod.mk.inj heq
      refine hns.kind hd ?_
      rw [hkind]
      exact mem_of_getElem? hfd
    · cases h

theorem behind_allows (hV : V.Closed) (hns : V.Covers ns) (hd : ns.get? id = some d)
    (hargs : ∀ a ∈ arguments, V.Allows a) (h : ns.behind scope d arguments = .ok (some next)) :
    ∀ a ∈ next.arguments, V.Allows a := by
  unfold behind at h
  simp only at h
  split at h
  · cases h
  · cases h
  · cases h
  · rename_i target hkind
    have htgt : V.Has target := hns.kind hd (by rw [hkind]; exact mem_singleton_self _)
    rw [bindName_arguments h]
    split
    · exact hargs
    · exact hV.call htgt
  · rename_i name index hkind
    split at h
    · cases h
    · split at h
      · rename_i owner call hcall
        obtain ⟨collection, _, hcall⟩ := Option.bind_eq_some_iff.mp hcall
        rw [bindName_arguments h]
        exact hV.call (element?_has hns hcall)
      · cases h
  · cases h
    exact hargs
  · cases h
    exact hargs
  · rename_i call hkind
    have hcall : V.Has call := hns.kind hd (by rw [hkind]; exact mem_singleton_self _)
    rw [bindName_arguments h]
    exact hV.call hcall

theorem resolveWithin_allows (hV : V.Closed) (hns : V.Covers ns) {scope : Option DefId} :
    ∀ (steps : Nat) {bound found : Bound}, (∀ a ∈ bound.arguments, V.Allows a) →
      ns.resolveWithin scope steps bound = .canonical found → ∀ a ∈ found.arguments, V.Allows a
  | 0, _, _, _, h => by cases h
  | steps + 1, bound, found, hargs, h => by
    unfold resolveWithin at h
    split at h
    · cases h
    · rename_i d hfind
      have hd := get?_of_find hfind
      split at h
      · split at h
        · cases h
        · cases h
        · rename_i next hnext
          exact resolveWithin_allows hV hns steps (behind_allows hV hns hd hargs hnext) h
      · obtain rfl := Resolution.canonical.inj h
        intro a ha
        rcases mem_append.mp ha with ha | ha
        · exact hargs a ha
        · exact (mem_replicate.mp ha).2 ▸ Vocabulary.allows_missing

/-- **A frame that is pushed has arguments of the vocabulary.** -/
theorem canonical_allows (hV : V.Closed) (hns : V.Covers ns) {bound found : Bound} {limit : Nat}
    (hargs : ∀ a ∈ bound.arguments, V.Allows a)
    (h : ns.canonical bound scope limit = .ok (some found)) :
    ∀ a ∈ found.arguments, V.Allows a := by
  unfold canonical at h
  split at h
  · rename_i other hresolved
    cases h
    exact resolveWithin_allows hV hns _ hargs hresolved
  all_goals cases h

end Namespace

/-! ## 3. Kept names -/

/-- What is kept is kept under names of the vocabulary. -/
def Upkeep.speaking (ns : Namespace) (V : Vocabulary) : Upkeep where
  engine e := e.Direct ns ∧ ∀ {k name p}, e.store.pointer? k name = some p →
    p.target.name ∈ V.names ∧ p.key ∈ V.names
  statement _ keep := keep.target ∈ V.names

/-- **What is kept is kept under names of the vocabulary**, whatever is done to tables. -/
theorem Upkeep.speaking_open (hns : V.Covers ns) : (speaking ns V).Open ns :=
  pointing_open (fun hd hkeep => hns.keeps hd hkeep)
    (fun hens hkeep hp hname => ⟨hname ▸ hkeep, by
      cases hp with
      | cache _ _ hkey => exact hkey ▸ hkeep
      | container _ hkey => exact hkey ▸ hkeep
      | durable _ hd hglob hkey _ => exact hkey ▸ hns.durable (hens ▸ hd) hglob⟩)
    fun _ hnames => hnames

/-! ## 4. Sessions -/

namespace Session

variable {s s' : Session} {rest : List Stack}

/-- The frames of the stack, top first, without what is counted of them. -/
def levels (s : Session) : List Frame := (s.view Frame.bare).map (·.2)

/-- All frames of the stack have arguments of the vocabulary, and what is kept has names of it. -/
structure Speaks (V : Vocabulary) (ns : Namespace) (rest : List Stack) (s : Session) : Prop where
  fit : s.Fit ns rest
  held : s.Upheld (.speaking ns V)
  arguments : ∀ f ∈ s.levels, ∀ a ∈ f.arguments, V.Allows a

theorem mem_levels {id : FrameId} {f : Frame} (h : (id, f) ∈ s.frames) : f.bare ∈ s.levels :=
  mem_map.mpr ⟨(id, f.bare), mem_map.mpr ⟨(id, f), h, rfl⟩, rfl⟩

theorem mem_of_enclosing (ns : Namespace) : ∀ {frames : List (FrameId × Frame)} {f : Frame},
    f ∈ enclosing ns frames → ∃ id, (id, f) ∈ frames
  | [], _, h => by cases h
  | [(id, frame)], f, h => ⟨id, by simp [enclosing] at h; simp [h]⟩
  | (id, frame) :: (id', below) :: others, f, h => by
    rw [enclosing] at h
    split at h
    · rcases mem_cons.mp h with rfl | h
      · exact ⟨id, mem_cons_self⟩
      · obtain ⟨other, hoth⟩ := mem_of_enclosing ns h
        exact ⟨other, mem_cons_of_mem _ hoth⟩
    · obtain rfl := mem_singleton.mp h
      exact ⟨id, mem_cons_self⟩

theorem bindingIn_argument {name : String} : ∀ {frames : List Frame} {depth : Nat}
    {binding : ArgumentBinding}, bindingIn name depth frames = some binding →
      ∃ f ∈ frames, binding.argument = .missing ∨ binding.argument ∈ f.arguments
  | [], _, _, h => by cases h
  | frame :: others, depth, binding, h => by
    rw [bindingIn] at h
    split at h
    · rename_i index _
      cases h
      refine ⟨frame, mem_cons_self, ?_⟩
      cases hget : frame.arguments[index]? with
      | none => exact .inl rfl
      | some a => exact .inr (mem_of_getElem? hget)
    · obtain ⟨f, hf, harg⟩ := bindingIn_argument h
      exact ⟨f, mem_cons_of_mem _ hf, harg⟩

/-- **What a name is bound to is of the vocabulary.** -/
theorem Speaks.argumentFor (h : s.Speaks V ns rest) {binding : ArgumentBinding}
    (hbind : s.argumentFor name = some binding) : V.Allows binding.argument := by
  obtain ⟨f, hf, harg⟩ := bindingIn_argument hbind
  obtain ⟨id, hfr⟩ := mem_of_enclosing s.ns hf
  rcases harg with hmissing | hmem
  · exact hmissing ▸ Vocabulary.allows_missing
  · exact h.arguments f.bare (mem_levels hfr) _ hmem

/-- **What a name is an alias for is of the vocabulary.** -/
theorem Speaks.alias_mem (h : s.Speaks V ns rest) {target : String}
    (htgt : s.keepTarget? name = some target) : target ∈ V.names := by
  unfold Session.keepTarget? at htgt
  split at htgt
  · rename_i p hp
    obtain ⟨entry, _, hkept⟩ := exists_of_findSome?_eq_some hp
    split at htgt
    · split at htgt
      · cases htgt
        exact (h.held.engine.2 hkept).1
      · cases htgt
    · cases htgt
  · cases htgt

theorem Speaks.keepTarget? (h : s.Speaks V ns rest) (hname : name ∈ V.names) :
    (s.keepTarget? name).getD name ∈ V.names := by
  cases htgt : s.keepTarget? name with
  | none => exact hname
  | some target => exact h.alias_mem htgt

end Session

end KeepTree
