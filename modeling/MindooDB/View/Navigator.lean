import MindooDB.Lib.Forest
import MindooDB.Lib.LinkedMap
import MindooDB.View.Types

/-!
# View/Navigator — the cursor of a view

`core/indexing/virtualviews/VirtualViewNavigator.ts`.  The cursor is a stack of the levels it has
descended through, each with the index it stands at; `ViewTree` is what it reads of a view.

The selection and the search by category are left out, and so is the `AsyncGenerator` around the
two iterations: a reader takes the entries one at a time from a tree that does not change.
-/

namespace MindooDB

/-- **The tree of a view**, as a navigator reads it. -/
structure ViewTree (α : Type*) extends Forest α where
  root : α
  origin : α → JSString
  docId : α → JSString
  isCategory : α → Bool
  getLevel : α → ℤ
  getSiblingIndex : α → ℕ
  getChildCount : α → ℤ
  getDescendantDocumentCount : α → ℤ
  category_of_mem : ∀ {p c}, c ∈ children p → isCategory p = true
  childCount_eq : ∀ e, getChildCount e = (children e).length
  descendantDocumentCount_eq : ∀ e, getDescendantDocumentCount e
    = ((children e).map fun c => if isCategory c then getDescendantDocumentCount c else 1).sum

/-- One level the cursor has descended through; `currentIndex` is `none` before the first entry. -/
structure TraversalInfo (α : Type*) where
  parentEntry : α
  childEntries : List α
  currentIndex : Option ℕ

/-- The levels, the deepest first. -/
abbrev EntryStack (α : Type*) := List (TraversalInfo α)

/-- The settings of a navigator; its constructor throws unless it includes something. -/
structure Navigator {α : Type*} (t : ViewTree α) where
  topEntry : α
  withCategories : Bool
  withDocuments : Bool
  includes_some : withCategories = true ∨ withDocuments = true
  accessCheck : Option (α → Bool)
  dontShowEmptyCategories : Bool
  expandedOrCollapsedEntries : LinkedSet JSString
  expandAllByDefault : Bool
  expandLevel : ℚ

/-- `for (let i = start; i < es.length; i++)`: the first index whose entry passes. -/
def firstFrom {α : Type*} (p : α → Bool) (es : List α) (start : ℕ) : Option ℕ :=
  ((es.drop start).findIdx? p).map (· + start)

/-- `for (let i = stop - 1; i >= 0; i--)`: the last index whose entry passes. -/
def lastBelow {α : Type*} (p : α → Bool) (es : List α) : ℕ → Option ℕ
  | 0 => none
  | i + 1 => if es[i]?.any p then some i else lastBelow p es i

namespace Navigator

variable {α : Type*} {t : ViewTree α} (nav : Navigator t)

/-! ## What is seen -/

/-- Access only. -/
def isVisibleRaw (entry : α) : Bool := nav.accessCheck.all fun check => check entry

def isEmptyCategory (entry : α) : Bool :=
  nav.dontShowEmptyCategories && t.isCategory entry && t.getDescendantDocumentCount entry = 0

def isVisible (entry : α) : Bool := nav.isVisibleRaw entry && !nav.isEmptyCategory entry

/-- The type filter. -/
def includes (entry : α) : Bool :=
  if t.isCategory entry then nav.withCategories else nav.withDocuments

def isExpandedByDocId (origin docId : JSString) : Bool :=
  let key := scopedDocIdKey origin docId
  (t.docId t.root = docId && t.origin t.root = origin) ||
    if nav.expandAllByDefault then key ∉ nav.expandedOrCollapsedEntries
    else key ∈ nav.expandedOrCollapsedEntries

def isExpanded (entry : α) : Bool :=
  (t.parent entry).isNone ||
    (0 < nav.expandLevel && (t.getLevel entry : ℚ) ≤ nav.expandLevel) ||
    nav.isExpandedByDocId (t.origin entry) (t.docId entry)

/-! ## The cursor -/

/-- Before the children of an entry. -/
def createTraversalInfo (t : ViewTree α) (parentEntry : α) : TraversalInfo α where
  parentEntry := parentEntry
  childEntries := t.children parentEntry
  currentIndex := none

def getCurrentEntryRaw : EntryStack α → Option α
  | [] => none
  | info :: _ => info.currentIndex.bind fun i => info.childEntries[i]?

def getCurrentEntry (stack : EntryStack α) : Option α :=
  (getCurrentEntryRaw stack).filter fun entry => nav.isVisible entry && nav.includes entry

/-- The first sibling after the current entry that passes. -/
def gotoNextSiblingBy (p : α → Bool) : EntryStack α → Option (EntryStack α)
  | [] => none
  | info :: stack =>
    (firstFrom p info.childEntries (info.currentIndex.elim 0 (· + 1))).map fun i =>
      { info with currentIndex := some i } :: stack

def gotoNextSibling : EntryStack α → Option (EntryStack α) := gotoNextSiblingBy nav.isVisible

def gotoNextSiblingRaw : EntryStack α → Option (EntryStack α) := gotoNextSiblingBy nav.isVisibleRaw

/-- The first visible child, of an entry that is expanded. -/
def gotoFirstChildRaw (currEntry : α) (stack : EntryStack α) : Option (EntryStack α) :=
  if nav.isExpanded currEntry && 0 < t.getChildCount currEntry then
    let childInfo := createTraversalInfo t currEntry
    (firstFrom nav.isVisibleRaw childInfo.childEntries 0).map fun i =>
      { childInfo with currentIndex := some i } :: stack
  else none

/-- `while (this.gotoParent()) { if (this.gotoNextSiblingRaw()) … }`. -/
def gotoNextSiblingOfParent : EntryStack α → Option (EntryStack α)
  | [] => none
  | [_] => none
  | _ :: info :: stack =>
    (nav.gotoNextSiblingRaw (info :: stack)).or (gotoNextSiblingOfParent (info :: stack))

/-- Where `gotoNext` moves from an entry: into it, to its next sibling, or to that of a parent. -/
def nextRaw (currEntry : α) (stack : EntryStack α) : Option (EntryStack α) :=
  (nav.gotoFirstChildRaw currEntry stack).or
    ((nav.gotoNextSiblingRaw stack).or (nav.gotoNextSiblingOfParent stack))

/-- The stack after a move and whether there was one; `none` when the fuel ran out. -/
def gotoNext : ℕ → EntryStack α → Option (Bool × EntryStack α)
  | 0, _ => none
  | fuel + 1, stack =>
    let moved := match getCurrentEntryRaw stack with
      | none => nav.gotoNextSibling stack
      | some currEntry => nav.nextRaw currEntry stack
    match moved with
    | none =>
      -- `gotoParent` has gone up to the top level, unless there was no entry to start from
      some (false, if (getCurrentEntryRaw stack).isNone then stack else stack.getLast?.toList)
    | some stack =>
      if (nav.getCurrentEntry stack).isSome then some (true, stack) else gotoNext fuel stack

def gotoFirst (fuel : ℕ) (stack : EntryStack α) : Option (Bool × EntryStack α) :=
  match stack.getLast? with
  | none => some (false, [])
  | some info =>
    match firstFrom nav.isVisibleRaw info.childEntries 0 with
    | none =>
      some (false, [if info.childEntries.isEmpty then info
        else { info with currentIndex := some (info.childEntries.length - 1) }])
    | some i =>
      let stack := [{ info with currentIndex := some i }]
      if (nav.getCurrentEntry stack).isSome then some (true, stack) else nav.gotoNext fuel stack

/-- The `do … while` of `entriesForward`. -/
def yieldForward : ℕ → EntryStack α → Option (List α)
  | 0, _ => none
  | fuel + 1, stack => do
    let (more, next) ← nav.gotoNext fuel stack
    let rest ← if more then yieldForward fuel next else some []
    return (nav.getCurrentEntry stack).toList ++ rest

/-- What `entriesForward(SelectedOnly.NO)` yields; `none` when the fuel ran out. -/
def entriesForward (fuel : ℕ) (stack : EntryStack α) : Option (List α) := do
  let (found, first) ← nav.gotoFirst fuel stack
  if found then nav.yieldForward fuel first else some []

/-! ## Backward -/

def gotoPrevSibling : EntryStack α → Option (EntryStack α)
  | [] => none
  | info :: stack =>
    (lastBelow nav.isVisible info.childEntries (info.currentIndex.getD 0)).map fun i =>
      { info with currentIndex := some i } :: stack

def gotoParent : EntryStack α → Option (EntryStack α)
  | _ :: info :: stack => some (info :: stack)
  | _ => none

def gotoDeepestExpandedDescendant : ℕ → α → EntryStack α → Option (EntryStack α)
  | 0, _, _ => none
  | fuel + 1, entry, stack =>
    if 0 < t.getChildCount entry && nav.isExpanded entry then
      let childInfo := createTraversalInfo t entry
      match lastBelow nav.isVisible childInfo.childEntries childInfo.childEntries.length with
      | none => some stack
      | some i =>
        let stack := { childInfo with currentIndex := some i } :: stack
        match getCurrentEntryRaw stack with
        | none => some stack
        | some child => gotoDeepestExpandedDescendant fuel child stack
    else some stack

/-- The entry before it. -/
def gotoPrev (fuel : ℕ) (stack : EntryStack α) : Option (Bool × EntryStack α) :=
  match nav.getCurrentEntry stack with
  | none => some (false, stack)
  | some _ =>
    match nav.gotoPrevSibling stack with
    | some stack =>
      match nav.getCurrentEntry stack with
      | some prevEntry => (nav.gotoDeepestExpandedDescendant fuel prevEntry stack).map (true, ·)
      | none => some (true, stack)
    | none =>
      match gotoParent stack with
      | some stack => some (true, stack)
      | none => some (false, stack)

def gotoLast (fuel : ℕ) (stack : EntryStack α) : Option (Bool × EntryStack α) :=
  match stack.getLast? with
  | none => some (false, [])
  | some info =>
    match lastBelow nav.isVisible info.childEntries info.childEntries.length with
    | none =>
      some (false,
        [if info.childEntries.isEmpty then info else { info with currentIndex := some 0 }])
    | some i =>
      let stack := [{ info with currentIndex := some i }]
      match getCurrentEntryRaw stack with
      | none => some (true, stack)
      | some entry => (nav.gotoDeepestExpandedDescendant fuel entry stack).map (true, ·)

/-- The `do … while` of `entriesBackward`. -/
def yieldBackward : ℕ → EntryStack α → Option (List α)
  | 0, _ => none
  | fuel + 1, stack => do
    let (more, next) ← nav.gotoPrev fuel stack
    let rest ← if more then yieldBackward fuel next else some []
    return (nav.getCurrentEntry stack).toList ++ rest

/-- What `entriesBackward(SelectedOnly.NO)` yields; `none` when the fuel ran out. -/
def entriesBackward (fuel : ℕ) (stack : EntryStack α) : Option (List α) := do
  let (found, last) ← nav.gotoLast fuel stack
  if found then nav.yieldBackward fuel last else some []

/-! ## Positions -/

/-- The loop of `gotoPosArray`. -/
def gotoPosFrom : List ℕ → EntryStack α → Bool × EntryStack α
  | [], stack => (true, stack)
  | _, [] => (false, [])
  | targetSiblingIndex :: pos, info :: stack =>
    let isTarget entry := t.getSiblingIndex entry = targetSiblingIndex && nav.isVisible entry
    match firstFrom isTarget info.childEntries 0 with
    | none => (false, info :: stack)
    | some j =>
      let stack := { info with currentIndex := some j } :: stack
      match pos, getCurrentEntryRaw stack with
      | _ :: _, some entry => gotoPosFrom pos (createTraversalInfo t entry :: stack)
      | _, _ => (true, stack)

def gotoPosArray (pos : List ℕ) : Bool × EntryStack α :=
  nav.gotoPosFrom pos [createTraversalInfo t nav.topEntry]

end Navigator

end MindooDB
