import KeepTree.Proofs.Evaluation.Lockstep

/-!
# Caching is transparent where evaluation is repeatable

A computed value is served to every later call for the same definition with the same arguments that
comes to its slot. An argument may be a call, though, which means something else in another frame,
and a definition may refer to the parameters of the frames around it. So a value may be served that
is not the one that would be computed, and then caching changes what an evaluation comes to
(`caching_changes_value`). It changes nothing if calls that can be answered from one slot have one
value:

* `Workspace.caching_transparent` -- **a repeatable evaluation that comes to a value without caching
  comes to the same value with it**.
-/

namespace KeepTree

open Dictionary

variable {ns : Namespace} {limits : Limits} {site : DefId} {s : Session}

/-! ## 1. New stacks -/

/-- A new stack, the only one over its engine. -/
def Session.fresh (ns : Namespace) (limits : Limits) : Session :=
  ⟨.new ns limits, .new 0 limits, {}⟩

namespace Workspace

theorem session?_start (ns : Namespace) (limits : Limits) (name : String) :
    ((Workspace.new ns limits).start name).session? name = some (.fresh ns limits) := by
  have hseat : ((Workspace.new ns limits).start name).seats.get? name = some ⟨0, {}⟩ :=
    get?_insert_self _ _ _
  rw [session?, hseat]
  rfl

/-- A new stack whose only frame is that of a site. -/
def onSite (ns : Namespace) (limits : Limits) (site : DefId) : Option Session := do
  let s ← ((Workspace.new ns limits).start "main").session? "main"
  match s.push site [] true with
  | (.ok (), s) => some s
  | (.error _, _) => none

/-- The value of a call that a new evaluator evaluates on the site. -/
def valueOn (ns : Namespace) (limits : Limits) (site : DefId) (call : Call) : Option Value := do
  let s ← onSite ns limits site
  match Run.evaluate ⟨s, {}⟩ call with
  | some (.ok value, _) => some value
  | _ => none

theorem onSite_eq_some :
    onSite ns limits site = some s ↔ (Session.fresh ns limits).push site [] true = (.ok (), s) := by
  rw [onSite, session?_start]
  cases h : (Session.fresh ns limits).push site [] true with
  | mk result s' => cases result <;> simp [h]

theorem valueOn_eq_some {call : Call} {value : Value} : valueOn ns limits site call = some value ↔
      ∃ s run, onSite ns limits site = some s ∧
        Run.evaluate ⟨s, {}⟩ call = some (.ok value, run) := by
  rw [valueOn]
  cases hs : onSite ns limits site with
  | none => simp
  | some s =>
    cases hrun : Run.evaluate ⟨s, {}⟩ call with
    | none => simp [hrun]
    | some p =>
      obtain ⟨out, run⟩ := p
      cases out <;> simp [hrun]

end Workspace

/-! ## 2. With and without caching -/

theorem Session.fresh_fit (ns : Namespace) (limits : Limits) : (Session.fresh ns limits).Fit ns [] where
  ns_eq := rfl
  sound := Family.sound_new 0 limits
  held id frame h := by simp [fresh, Family.new, frame?, Pool.get?] at h

theorem Session.fresh_alike (ns : Namespace) (ledger : List Answer) (limits : Limits) :
    Session.Alike ns ledger ⟨fun _ _ => False, fun _ => 0⟩ (.fresh ns.uncached limits)
      (.fresh ns limits) where
  fit := fresh_fit _ limits
  fit' := fresh_fit _ limits
  limits_eq := rfl
  store := ⟨nofun, nofun, nofun, fun _ _ => rfl, fun _ _ => rfl⟩
  frames := by
    have hnothing : ∀ ns : Namespace, (fresh ns limits).view Frame.bare = [] :=
      fun ns => Pool.view_none _ _
    exact .nil
  root h := absurd h (Nat.lt_irrefl 0)
  bottomless _ := ⟨rfl, rfl⟩

namespace Workspace

theorem alike_onSite (hp : ns.Passing) (ho : ns.Orderly) (ledger : List Answer)
    (h : onSite ns.uncached limits site = some s) : ∃ s' p, onSite ns limits site = some s' ∧
      Run.Alike ns ledger p ⟨s, {}⟩ ⟨s', {}⟩ := by
  obtain ⟨s', fu, fc, hpush, _, _, _, hsess, hsize, _⟩ :=
    (Session.fresh_alike ns ledger limits).push hp ho (onSite_eq_some.mp h)
  refine ⟨s', _, onSite_eq_some.mpr hpush, hsess, hsize, rfl, ?_, rfl, ?_⟩
  · exact fun _ hmem => absurd hmem List.not_mem_nil
  · exact fun _ hmem => absurd hmem List.not_mem_nil

/-- **Caching is transparent where evaluation is repeatable.** Take a namespace without keep
    statements in which every definition is dynamic or kept in its context, and a call evaluated by
    a new evaluator on a new stack whose only frame is that of a site. If without caching it comes
    to a value, and calls that can be answered from one slot have one value, it comes to the same
    value with caching. -/
theorem caching_transparent (hp : ns.Passing) (ho : ns.Orderly) (limits : Limits) (site : DefId)
    (call : Call) {value : Value}
    (hrepeatable : ∀ s ∈ onSite ns.uncached limits site, Repeatable ns ampleFuel call ⟨s, {}⟩)
    (h : valueOn ns.uncached limits site call = some value) :
    valueOn ns limits site call = some value := by
  obtain ⟨s, run, hs, hrun⟩ := valueOn_eq_some.mp h
  obtain ⟨ledger, hwatched⟩ := (hrepeatable s hs).watched
  obtain ⟨s', p, hs', halike⟩ := alike_onSite hp ho ledger hs
  have hfollows := (lockstep_within hp ho ledger ampleFuel).call call halike
  obtain ⟨_, run', hrun', rfl, _⟩ := hfollows value run (hwatched.trans hrun)
  exact valueOn_eq_some.mpr ⟨s', run', hs', hrun'⟩

/-- A site whose `page` greets one person twice and others in a loop. -/
def greetings : Namespace where
  definitions := #[
    { name := "site", fullName := "site", kind := .site, site := some 0
      children := (empty.insert "greet" 1).insert "page" 2 },
    { name := "greet", fullName := "site.greet", owner := some 0, site := some 0
      parameters := ["name"]
      body := .concat [.literal (.text "hello "), .ref (.plain "name")] },
    { name := "page", fullName := "site.page", owner := some 0, site := some 0
      body := .list [.ref ⟨"greet", [.value (.text "Ada")]⟩, .ref ⟨"greet", [.value (.text "Ada")]⟩,
        .each "other" (.literal (.list [.text "Bob", .text "Eve"]))
          (.ref ⟨"greet", [.call "other" []]⟩)] }]
  roots := empty.insert "site" 0

/-- What the page of greetings comes to. -/
def greeted : Value :=
  .list [.text "hello Ada", .text "hello Ada", .list [.text "hello Bob", .text "hello Eve"]]

/-- The values that belong into the slots of the page. The iterations of the loop have slots of
    their own, for the argument that they hand over reads the same in both. -/
def greetingsLedger : List Answer := [
  ⟨⟨1, "page"⟩, 2, [], greeted⟩,
  ⟨⟨3, "greet"⟩, 1, [.value (.text "Ada")], .text "hello Ada"⟩,
  ⟨⟨3, "greet#0"⟩, 1, [.call "other" []], .text "hello Bob"⟩,
  ⟨⟨3, "greet#1"⟩, 1, [.call "other" []], .text "hello Eve"⟩]

theorem caching_transparent_greetings :
    valueOn greetings.uncached {} 0 (.plain "page") = some greeted ∧
      valueOn greetings {} 0 (.plain "page") = some greeted := by
  have hp : greetings.Passing := Namespace.passing_of_isPassing (by decide +kernel)
  have ho : greetings.Orderly := Namespace.orderly_of_isOrderly (by decide +kernel)
  have hwatched : ∀ s ∈ onSite greetings.uncached {} 0,
      (watchedWithin greetings greetingsLedger ampleFuel (.plain "page") ⟨s, {}⟩).isSome = true := by
    decide +kernel
  have hvalue : valueOn greetings.uncached {} 0 (.plain "page") = some greeted := by
    decide +kernel
  exact ⟨hvalue, caching_transparent hp ho {} 0 (.plain "page")
    (fun s hs => ⟨greetingsLedger, hwatched s hs⟩) hvalue⟩

/-- A site in which `outer` and `inner` both hand the call `p` to `f`, each with a `p` of its
    own. -/
def relaying : Namespace where
  definitions := #[
    { name := "site", fullName := "site", kind := .site, site := some 0
      children := ((empty.insert "f" 1).insert "outer" 2).insert "inner" 3 },
    { name := "f", fullName := "site.f", owner := some 0, site := some 0, parameters := ["a"]
      body := .ref (.plain "a") },
    { name := "outer", fullName := "site.outer", owner := some 0, site := some 0
      parameters := ["p"]
      body := .list [.ref ⟨"f", [.call "p" []]⟩, .ref ⟨"inner", [.value (.text "two")]⟩] },
    { name := "inner", fullName := "site.inner", owner := some 0, site := some 0
      parameters := ["p"], body := .ref ⟨"f", [.call "p" []]⟩ }]
  roots := empty.insert "site" 0

/-- **Caching is not transparent.** The value that `f` has in the frame of `outer` is served in the
    frame of `inner`, where its argument reads the same and means something else. -/
theorem caching_changes_value :
    relaying.isPassing = true ∧ relaying.isOrderly = true ∧
    valueOn relaying.uncached {} 0 ⟨"outer", [.value (.text "one")]⟩ =
      some (.list [.text "one", .text "two"]) ∧
    valueOn relaying {} 0 ⟨"outer", [.value (.text "one")]⟩ =
      some (.list [.text "one", .text "one"]) := by
  decide +kernel

end Workspace

end KeepTree
