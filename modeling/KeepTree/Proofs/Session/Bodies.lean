import KeepTree.Proofs.Durable.Pointers

/-!
# Sessions and bodies

What a definition evaluates to is nothing that a session asks for. A session over a namespace in which
some definition has another body finds the values that it found before:

* `find_withNamespace`, `argumentFor_withNamespace` -- **requests and names of parameters are answered
  alike**.
-/

namespace KeepTree

variable {ns ns' : Namespace}

/-! ## 1. Namespaces -/

/-- The definition with another body. -/
def Definition.withBody (d : Definition) (body : Body) : Definition := { d with body }

/-- The definition inside which alone the values of this one are seen. -/
def Definition.confinedTo? (d : Definition) : Option DefId :=
  match d.access, d.owner with
  | .ownerOnly, some owner => some owner
  | _, _ => none

namespace Namespace

/-- The namespace with another body for a definition. -/
def withBody (ns : Namespace) (id : DefId) (body : Body) : Namespace :=
  ns.modify id (·.withBody body)

/-- The same definitions, but for their bodies. -/
structure Rebodied (ns ns' : Namespace) : Prop where
  outline_eq : ns'.outline = ns.outline
  get?_eq : ∀ id, (ns'.get? id).map (·.withBody .empty) = (ns.get? id).map (·.withBody .empty)

theorem get?_withBody_self {id : DefId} {d : Definition} (hd : ns.get? id = some d) (body : Body) :
    (ns.withBody id body).get? id = some (d.withBody body) := by
  rw [withBody, get?, modify, Array.getElem?_modify, if_pos rfl]
  exact congrArg (Option.map _) hd

theorem get?_withBody_of_ne (ns : Namespace) {id other : DefId} (hne : other ≠ id) (body : Body) :
    (ns.withBody id body).get? other = ns.get? other := by
  rw [withBody, get?, modify, Array.getElem?_modify, if_neg (Ne.symm hne)]
  rfl

theorem withBody_rebodied (ns : Namespace) (id : DefId) (body : Body) :
    ns.Rebodied (ns.withBody id body) := by
  have hget : ∀ {α : Type} (f : Definition → α), (∀ d, f (d.withBody body) = f d) → ∀ other,
      ((ns.withBody id body).get? other).map f = (ns.get? other).map f := by
    intro α f hf other
    by_cases hoth : other = id
    · subst hoth
      cases hd : ns.get? other with
      | none =>
        have hnone : (ns.withBody other body).get? other = none := by
          rw [withBody, get?, modify, Array.getElem?_modify, if_pos rfl]
          exact congrArg (Option.map _) hd
        rw [hnone]
      | some d =>
        rw [get?_withBody_self hd]
        exact congrArg some (hf d)
    · rw [ns.get?_withBody_of_ne hoth]
  refine ⟨?_, hget _ fun _ => rfl⟩
  have hdefs : (ns.withBody id body).definitions.map Definition.outline =
      ns.definitions.map Definition.outline := by
    refine Array.ext_getElem? fun other => ?_
    rw [Array.getElem?_map, Array.getElem?_map]
    exact hget Definition.outline (fun _ => rfl) other
  simp only [outline, hdefs]
  rfl

theorem Rebodied.bind_eq (h : ns.Rebodied ns') {α : Type} {f : Definition → Option α}
    (hf : ∀ d, f (d.withBody .empty) = f d) (id : DefId) :
    (ns'.get? id).bind f = (ns.get? id).bind f := by
  have hsame := congrArg (Option.bind · f) (h.get?_eq id)
  simp only [Option.bind_map, Function.comp_def, hf] at hsame
  exact hsame

end Namespace

/-! ## 2. Sessions -/

namespace Session

/-- The session over another namespace. -/
def withNamespace (s : Session) (ns : Namespace) : Session := { s with engine := { s.engine with ns } }

variable {s : Session} {rest : List Stack}

theorem Direct.withNamespace (h : s.Direct ns rest) (hsize : ns'.size = ns.size) :
    (s.withNamespace ns').Direct ns' rest where
  fit := ⟨rfl, h.fit.sound, fun id frame hf => hsize ▸ h.fit.held id frame hf⟩
  lodged :=
    { engine := ⟨⟨⟨h.engine.global_lt, h.engine.site_lt⟩, rfl, h.engine.no_pointer⟩,
        h.lodged.engine.pointer_lt⟩
      frames := fun id frame hf =>
        let housed := h.lodged.frames id frame hf
        ⟨housed.cache, housed.keeps, housed.container⟩ }
  hops := h.hops

/-- **A name stands for the same parameter.** -/
theorem argumentFor_withNamespace (h : s.ns.Rebodied ns') (name : String) :
    (s.withNamespace ns').argumentFor name = s.argumentFor name :=
  argumentFor_congr (t := s.withNamespace ns') h.outline_eq (List.forall₂_same.mpr fun _ _ => rfl)
    name

theorem sees_eq (h : ns.Rebodied ns') (origin : DefId) (holder : Holder) :
    sees ns' origin holder = sees ns origin holder := by
  have hread : ∀ ns : Namespace, sees ns origin holder =
      !((ns.get? holder.nominal).bind Definition.confinedTo?).any fun owner =>
        !ns.isWithin origin owner := by
    intro ns
    rw [sees]
    cases ns.get? holder.nominal with
    | none => rfl
    | some d =>
      simp only [Option.bind_some, Definition.confinedTo?]
      cases d.access <;> cases d.owner <;> simp
  rw [hread, hread, h.bind_eq (fun _ => rfl)]
  simp only [Namespace.isWithin_congr h.outline_eq]

theorem yields_eq (h : ns.Rebodied ns') (origin : DefId) (r : Request) (entry : Entry) :
    yields ns' origin r entry = yields ns origin r entry := by
  cases entry with
  | holder holder => rw [yields, yields, sees_eq h]
  | _ => rfl

theorem resolve_withNamespace (h : s.ns.Rebodied ns') (origin : DefId) (r : Request) (entry : Entry)
    (iteration : Option Nat) :
    (s.withNamespace ns').resolve origin r entry iteration = s.resolve origin r entry iteration := by
  have hyields : ∀ entry, yields (s.withNamespace ns').ns origin r entry = yields s.ns origin r entry :=
    yields_eq h origin r
  have hsto : (s.withNamespace ns').store = s.store := rfl
  have hlim : (s.withNamespace ns').limits = s.limits := rfl
  unfold resolve
  split
  · simp only [hyields, hsto, hlim]
  · rw [hyields]

theorem durableTables_withNamespace (h : s.ns.Rebodied ns') (r : Request) (frame : Frame) :
    (s.withNamespace ns').durableTables r frame = s.durableTables r frame := by
  have hown : ∀ f : Definition → Option TableId, (∀ d, f (d.withBody .empty) = f d) →
      (r.definition.bind (s.withNamespace ns').ns.get?).bind f =
        (r.definition.bind s.ns.get?).bind f := by
    intro f hf
    cases r.definition with
    | none => rfl
    | some id => exact h.bind_eq hf id
  simp only [durableTables]
  rw [hown _ fun _ => rfl]
  rfl

/-- **A request is answered alike**, whatever the bodies of definitions are. -/
theorem find_withNamespace (h : s.ns.Rebodied ns') (r : Request) :
    (s.withNamespace ns').find r = s.find r := by
  cases hfr : s.topFrame? with
  | none =>
    exact (find_of_no_top (s := s.withNamespace ns') hfr).trans (find_of_no_top hfr).symm
  | some frame =>
    have hfrs : List.Forall₂ (fun x y => x.2 = y.2) s.frames (s.withNamespace ns').frames :=
      List.forall₂_same.mpr fun _ _ => rfl
    have hagree : ∀ x, Agree s (s.withNamespace ns') frame.definition r x x := fun x =>
      resolve_withNamespace h frame.definition r x.1 x.2
    refine find_congr hfr hfr rfl (List.rel_append ?_ ?_)
      (searchEnding_congr h.outline_eq (hfrs.imp fun _ _ h => h ▸ rfl))
    · unfold durableCandidates
      rw [durableTables_withNamespace h]
      exact List.forall₂_same.mpr fun x _ => hagree x
    · refine frameCandidates_congr (R := Eq) h.outline_eq (fun h => h ▸ rfl) (fun {f g} h => ?_)
        hfrs
      subst h
      exact rel_agree hagree ((entryIn s.store r.key f).map (·, f.iteration))

end Session

theorem Recur.request_eq (h : ns.Rebodied ns') (call : Call) (definition : Option DefId) :
    request ns' call definition = request ns call definition := by
  have hkey : ∀ f : Definition → Option String, (∀ d, f (d.withBody .empty) = f d) →
      (definition.bind ns'.get?).bind f = (definition.bind ns.get?).bind f := by
    intro f hf
    cases definition with
    | none => rfl
    | some id => exact h.bind_eq hf id
  simp only [request]
  rw [hkey _ fun _ => rfl]

end KeepTree
