import KeepTree.Proofs.Namespace.Closed

/-!
# Words and loop items

Computed values and loop items are put into the same tables, a value under the name that was asked
for and an item under the name that its loop binds. In a loop both carry the number of the iteration
behind a mark. Keys can be told apart by what stands before the mark:

* `Namespace.words`, `lookupFrom_words` -- **a name that means something is made of words**;
* `Apart`, `Apart.not_item` -- no word has a mark in it and no item is a word, so that **no key is
  that of a value and that of an item**.
-/

namespace KeepTree

open DottedName List

variable {ns : Namespace} {key name : String} {d : Definition} {id : DefId} {inside : Option DefId}

/-! ## 1. Stems and segments -/

namespace DottedName

/-- The part of a key before the first mark of iteration. -/
def stem (key : String) : String := String.ofList (key.toList.takeWhile (· != '#'))

theorem stem_inLoop (key : String) (iter : Option Nat) : stem (inLoop key iter) = stem key := by
  cases iter with
  | none => rfl
  | some index =>
    have hsharp : "#".toList = ['#'] := rfl
    simp only [stem, inLoop, String.toList_append, hsharp, append_assoc, takeWhile_append]
    split
    · rename_i hlen
      rw [(List.takeWhile_prefix _).eq_of_length hlen]
      exact congrArg String.ofList (append_nil _)
    · rfl

theorem stem_eq_self (h : isLoopKey key = false) : stem key = key := by
  have hall : ∀ c ∈ key.toList, (c != '#') = true := by
    intro c hc
    rw [isLoopKey, contains_eq_mem, decide_eq_false_iff_not] at h
    exact bne_iff_ne.mpr fun e => h (e ▸ hc)
  have htake : (key.toList ++ []).takeWhile (· != '#') = key.toList ++ [] :=
    takeWhile_append_of_pos hall
  rw [append_nil] at htake
  rw [stem, htake, String.ofList_toList]

theorem mem_splitDots {c : Char} (hc : c ≠ '.') : ∀ {text : List Char}, c ∈ text →
    ∃ part ∈ splitDots text, c ∈ part
  | d :: rest, h => by
    rw [splitDots]
    split
    · rename_i hd
      have hrest : c ∈ rest := (mem_cons.mp h).resolve_left fun e => hc (e.trans hd)
      obtain ⟨part, hpart, hmem⟩ := mem_splitDots hc hrest
      exact ⟨part, mem_cons_of_mem _ hpart, hmem⟩
    · split
      · rename_i hnil
        rcases mem_cons.mp h with rfl | hrest
        · exact ⟨[c], mem_cons_self, mem_cons_self⟩
        · obtain ⟨part, hpart, _⟩ := mem_splitDots hc hrest
          rw [hnil] at hpart
          cases hpart
      · rename_i first parts hcons
        rcases mem_cons.mp h with rfl | hrest
        · exact ⟨c :: first, mem_cons_self, mem_cons_self⟩
        · obtain ⟨part, hpart, hmem⟩ := mem_splitDots hc hrest
          rw [hcons] at hpart
          rcases mem_cons.mp hpart with rfl | hpart
          · exact ⟨d :: part, mem_cons_self, mem_cons_of_mem _ hmem⟩
          · exact ⟨part, mem_cons_of_mem _ hpart, hmem⟩

theorem isLoopKey_eq_false (h : ∀ part ∈ segments name, isLoopKey part = false) :
    isLoopKey name = false := by
  rw [isLoopKey, contains_eq_mem, decide_eq_false_iff_not]
  intro hmem
  obtain ⟨part, hpart, hsharp⟩ := mem_splitDots (by decide) hmem
  have hfree := h (String.ofList part) (mem_map.mpr ⟨part, hpart, rfl⟩)
  rw [isLoopKey, contains_eq_mem, decide_eq_false_iff_not, String.toList_ofList] at hfree
  exact hfree hsharp

theorem splitDots_eq (text : List Char) : ∃ parts,
    splitDots text = text.takeWhile (· != '.') :: parts := by
  induction text with
  | nil => exact ⟨[], rfl⟩
  | cons c rest ih =>
    obtain ⟨parts, hparts⟩ := ih
    rw [splitDots]
    by_cases hc : c = '.'
    · subst hc
      exact ⟨_, by rw [if_pos rfl]; rfl⟩
    · refine ⟨parts, ?_⟩
      have hne : (c != '.') = true := bne_iff_ne.mpr hc
      rw [if_neg hc, hparts, takeWhile_cons, if_pos hne]

theorem segments_eq (name : String) : segments name = head name :: tail name := by
  obtain ⟨parts, hparts⟩ := splitDots_eq name.toList
  rw [tail, segments, hparts]
  rfl

end DottedName

theorem Dictionary.mem_keys {α : Type} {d : Dictionary String α} {value : α}
    (h : d.get? key = some value) : key ∈ d.entries.map (·.1) := by
  unfold get? at h
  generalize d.entries = entries at h
  induction entries with
  | nil => cases h
  | cons entry rest ih =>
    rw [lookup] at h
    split at h
    · rename_i heq
      rw [Std.LawfulEqOrd.eq_of_compare heq]
      exact mem_cons_self
    · exact mem_cons_of_mem _ (ih h)

/-! ## 2. Words -/

namespace Namespace

/-- The names of definitions, and those that they and the namespace have for others. -/
def words (ns : Namespace) : List String :=
  ns.roots.entries.map (·.1) ++
    ns.definitions.toList.flatMap fun d => d.name :: d.children.entries.map (·.1)

theorem mem_words (hd : ns.get? id = some d) (h : name ∈ d.name :: d.children.entries.map (·.1)) :
    name ∈ ns.words := by
  refine mem_append_right _ (mem_flatMap.mpr ⟨d, ?_, h⟩)
  exact Array.mem_toList_iff.mpr (Array.mem_of_getElem? hd)

theorem childWithin_words {name : String} : ∀ (steps : Nat) {id next : DefId},
    ns.childWithin name steps id = .ok (some next) → name ∈ ns.words
  | 0, _, _, h => by cases h
  | steps + 1, id, next, h => by
    rw [childWithin] at h
    cases hfind : ns.find id with
    | error gap => simp [hfind] at h
    | ok d =>
      simp only [hfind] at h
      cases hch : d.child? name with
      | some child => exact mem_words (get?_of_find hfind) (mem_cons_of_mem _ (Dictionary.mem_keys hch))
      | none =>
        cases hsuper : d.superdefinition with
        | none => simp [hch, hsuper] at h
        | some upper =>
          simp only [hch, hsuper] at h
          exact childWithin_words steps h

theorem descend_words : ∀ (path : List String) {id next : DefId},
    ns.descend id path = .ok (some next) → ∀ part ∈ path, part ∈ ns.words
  | [], _, _, _, _, hmem => by cases hmem
  | name :: rest, id, next, h, part, hmem => by
    obtain ⟨mid, hmid, h⟩ := descend_cons.mp h
    rcases mem_cons.mp hmem with rfl | hmem
    · exact childWithin_words _ hmid
    · exact descend_words rest h part hmem

theorem headAmong_words {name : String} : ∀ (around : List (DefId × Definition)) {next : DefId},
    (∀ entry ∈ around, ns.get? entry.1 = some entry.2) →
      ns.headAmong name around = .ok (some next) → name ∈ ns.words
  | [], _, _, h => mem_append_left _ (Dictionary.mem_keys (Except.ok.inj h))
  | (id, d) :: rest, next, hheld, h => by
    rw [headAmong] at h
    split at h
    · split at h
      · rename_i hname
        rw [← beq_iff_eq.mp hname]
        exact mem_words (hheld (id, d) mem_cons_self) mem_cons_self
      · exact headAmong_words rest (fun entry hmem => hheld entry (mem_cons_of_mem _ hmem)) h
    · exact childWithin_words _ h

/-- **A name that means something is made of words.** -/
theorem lookupFrom_words (h : ns.lookupFrom inside name = .ok (some id)) :
    ∀ part ∈ segments name, part ∈ ns.words := by
  rw [lookupFrom] at h
  split at h
  · rename_i start hstart
    rw [segments_eq]
    intro part hmem
    rcases mem_cons.mp hmem with rfl | hmem
    · exact headAmong_words _ (ownersWithin_get? _ _) hstart
    · exact descend_words _ h part hmem
  · rename_i hstopped
    exact absurd h (hstopped id)

end Namespace

/-! ## 3. Items -/

mutual
/-- The items that are bound when the body is evaluated, not counting other definitions. -/
def Body.items : Body → List String
  | .each item range inner => item :: (range.items ++ inner.items)
  | .concat parts => Body.allItems parts
  | .list items => Body.allItems items
  | _ => []

def Body.allItems : List Body → List String
  | [] => []
  | body :: rest => body.items ++ Body.allItems rest
end

namespace Namespace

/-- The names that loops bind. -/
def items (ns : Namespace) : List String := ns.definitions.toList.flatMap (·.body.items)

/-- No word and no item has a mark of iteration in it, and no item begins with a word. -/
structure Apart (ns : Namespace) : Prop where
  words : ∀ word ∈ ns.words, isLoopKey word = false
  items : ∀ item ∈ ns.items, isLoopKey item = false
  heads : ∀ item ∈ ns.items, DottedName.head item ∉ ns.words

theorem Apart.stem_item (h : ns.Apart) {item : String} (hitem : item ∈ ns.items)
    (iter : Option Nat) : stem (inLoop item iter) ∈ ns.items := by
  rw [stem_inLoop, stem_eq_self (h.items item hitem)]
  exact hitem

/-- **No key is that of a value and that of an item.** -/
theorem Apart.not_item (h : ns.Apart) (hname : ns.lookupFrom inside name = .ok (some id))
    (iter : Option Nat) : stem (inLoop name iter) ∉ ns.items := by
  have hwords := lookupFrom_words hname
  rw [stem_inLoop, stem_eq_self
    (isLoopKey_eq_false fun part hpart => h.words part (hwords part hpart))]
  intro hitem
  refine h.heads name hitem (hwords _ ?_)
  rw [segments_eq]
  exact mem_cons_self

end Namespace

end KeepTree
