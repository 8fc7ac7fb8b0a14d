import Sirius.Lib.AvlTree

/-! # The AVL tree of the kernel (`common/avl/avl.c`)

    Nodes in memory: two child pointers, a parent pointer, the index in the parent and a
    balance.  A node stands for the object it is in, so `avl_offset` is left out.  Loops that
    follow pointers take a bound on their rounds; `none` is a failed `ASSERT`, a dereferenced
    `NULL`, or the bound. -/

namespace Sirius.Avl

open Sirius.Lib

/-- `avl_node_t`. -/
@[ext] structure Node (A : Type) where
  child : Bool → Option A
  parent : Option A
  childIndex : Bool
  balance : ℤ

/-- `avl_tree_t`, with the memory its nodes are in. -/
structure AvlTree (A : Type) where
  root : Option A
  numnodes : ℕ
  heap : A → Node A

/-- `avl_index_t`. -/
structure Index (A : Type) where
  node : Option A
  child : Bool
  deriving DecidableEq

/-- `avl_balance2child[1 + b]`. -/
def balance2child (b : ℤ) : Bool := b = 1

section

variable {A : Type} [DecidableEq A]

namespace AvlTree

def set (s : AvlTree A) (a : A) (n : Node A) : AvlTree A :=
  { s with heap := Function.update s.heap a n }

/-- `a->avl_child[d] = p`. -/
def setChild (s : AvlTree A) (a : A) (d : Bool) (p : Option A) : AvlTree A :=
  s.set a { s.heap a with child := Function.update (s.heap a).child d p }

/-- `AVL_SETPARENT`. -/
def setParent (s : AvlTree A) (a : A) (p : Option A) : AvlTree A :=
  s.set a { s.heap a with parent := p }

/-- `AVL_SETCHILD`. -/
def setIndex (s : AvlTree A) (a : A) (d : Bool) : AvlTree A :=
  s.set a { s.heap a with childIndex := d }

/-- `AVL_SETBALANCE`. -/
def setBalance (s : AvlTree A) (a : A) (b : ℤ) : AvlTree A := s.set a { s.heap a with balance := b }

/-- `if (p != NULL) { AVL_SETPARENT(p, a); AVL_SETCHILD(p, d); }`. -/
def adopt (s : AvlTree A) (p a : Option A) (d : Bool) : AvlTree A :=
  match p with
  | none => s
  | some c => (s.setParent c a).setIndex c d

/-- `if (a != NULL) a->avl_child[d] = p; else tree->avl_root = p;`. -/
def relink (s : AvlTree A) (a : Option A) (d : Bool) (p : Option A) : AvlTree A :=
  match a with
  | none => { s with root := p }
  | some c => s.setChild c d p

end AvlTree

/-- `while (node->avl_child[d] != NULL) node = node->avl_child[d];`. -/
def descend (s : AvlTree A) (d : Bool) : ℕ → A → Option A
  | 0, _ => none
  | n + 1, node =>
    match (s.heap node).child d with
    | none => some node
    | some c => descend s d n c

/-- Up to the first ancestor that is reached from its child on side `right`. -/
def ascend (s : AvlTree A) (right : Bool) : ℕ → A → Option (Option A)
  | 0, _ => none
  | n + 1, node =>
    match (s.heap node).parent with
    | none => some none
    | some p => if (s.heap node).childIndex = right then some (some p) else ascend s right n p

def avlWalk (fuel : ℕ) (s : AvlTree A) (oldnode : Option A) (left : Bool) : Option (Option A) :=
  match oldnode with
  | none => some none
  | some node =>
    match (s.heap node).child left with
    | some c => (descend s (!left) fuel c).map some
    | none => ascend s (!left) fuel node

/-- `for (node = …; node != NULL; node = node->avl_child[d]) prev = node;`. -/
def lastNode (s : AvlTree A) (d : Bool) : ℕ → Option A → Option A → Option (Option A)
  | 0, _, _ => none
  | _ + 1, none, prev => some prev
  | n + 1, some node, _ => lastNode s d n ((s.heap node).child d) (some node)

def avlFirst (fuel : ℕ) (s : AvlTree A) : Option (Option A) := lastNode s false fuel s.root none

def avlLast (fuel : ℕ) (s : AvlTree A) : Option (Option A) := lastNode s true fuel s.root none

def avlNearest (fuel : ℕ) (s : AvlTree A) (index : Index A) (direction : Bool) :
    Option (Option A) :=
  match index.node with
  | none => if s.root = none then some none else none
  | some node =>
    if index.child ≠ direction then some (some node)
    else avlWalk fuel s (some node) direction

section

variable {V : Type} (compar : V → V → ℤ) (data : A → V)

/-- The loop of `avl_find`. -/
def findLoop (s : AvlTree A) (value : V) :
    ℕ → Option A → Option A → Bool → Option (Option A × Index A)
  | 0, _, _, _ => none
  | _ + 1, none, prev, child => some (none, ⟨prev, child⟩)
  | n + 1, some node, _, _ =>
    let diff := compar value (data node)
    if ¬ (-1 ≤ diff ∧ diff ≤ 1) then none
    else if diff = 0 then some (some node, ⟨none, false⟩)
    else
      findLoop s value n ((s.heap node).child (balance2child diff)) (some node) (balance2child diff)

/-- `avl_find`: the node, or the place where it would be. -/
def avlFind (fuel : ℕ) (s : AvlTree A) (value : V) : Option (Option A × Index A) :=
  findLoop compar data s value fuel s.root none false

end

/-- `avl_rotation`: the tree, and whether the subtree has become lower. -/
def avlRotation (s : AvlTree A) (node : A) (balance : ℤ) : Option (AvlTree A × Bool) :=
  let left : Bool := ¬ balance < 0
  let right := !left
  let leftHeavy := balance / 2
  let rightHeavy := -leftHeavy
  let parent := (s.heap node).parent
  let whichChild := (s.heap node).childIndex
  match (s.heap node).child left with
  | none => none
  | some child =>
    let childBal := (s.heap child).balance
    if childBal ≠ rightHeavy then
      let childBal := childBal + rightHeavy
      let cright := (s.heap child).child right
      let s := s.setChild node left cright
      let s := s.adopt cright (some node) left
      let s := s.setChild child right (some node)
      let s := s.setBalance node (-childBal)
      let s := s.setIndex node right
      let s := s.setParent node (some child)
      let s := s.setBalance child childBal
      let s := s.setIndex child whichChild
      let s := s.setParent child parent
      let s := s.relink parent whichChild (some child)
      some (s, childBal = 0)
    else
      match (s.heap child).child right with
      | none => none
      | some gchild =>
        let gleft := (s.heap gchild).child left
        let gright := (s.heap gchild).child right
        let s := s.setChild node left gright
        let s := s.adopt gright (some node) left
        let s := s.setChild child right gleft
        let s := s.adopt gleft (some child) right
        let balance := (s.heap gchild).balance
        let s := s.setChild gchild left (some child)
        let s := s.setBalance child (if balance = rightHeavy then leftHeavy else 0)
        let s := s.setParent child (some gchild)
        let s := s.setIndex child left
        let s := s.setChild gchild right (some node)
        let s := s.setBalance node (if balance = leftHeavy then rightHeavy else 0)
        let s := s.setParent node (some gchild)
        let s := s.setIndex node right
        let s := s.setBalance gchild 0
        let s := s.setParent gchild parent
        let s := s.setIndex gchild whichChild
        let s := s.relink parent whichChild (some gchild)
        some (s, true)

/-- The loop of `avl_insert`, up from the parent of what has grown. -/
def insertLoop : ℕ → AvlTree A → Option A → Bool → Option (AvlTree A)
  | 0, _, _, _ => none
  | _ + 1, s, none, _ => some s
  | n + 1, s, some node, whichChild =>
    let oldBalance := (s.heap node).balance
    let newBalance := oldBalance + BalTree.sign whichChild
    if newBalance = 0 then some (s.setBalance node 0)
    else if oldBalance ≠ 0 then (avlRotation s node newBalance).map Prod.fst
    else
      let s := s.setBalance node newBalance
      insertLoop n s (s.heap node).parent (s.heap node).childIndex

def avlInsert (fuel : ℕ) (s : AvlTree A) (newData : A) (index : Index A) : Option (AvlTree A) :=
  let parent := index.node
  let whichChild := index.child
  let s := { s with numnodes := s.numnodes + 1 }
  let s := s.setChild newData false none
  let s := s.setChild newData true none
  let s := s.setIndex newData whichChild
  let s := s.setBalance newData 0
  let s := s.setParent newData parent
  -- The place must be empty.
  let old : Option A := match parent with
    | some p => (s.heap p).child whichChild
    | none => s.root
  if old ≠ none then none
  else insertLoop fuel (s.relink parent whichChild (some newData)) parent whichChild

section

variable {V : Type} (compar : V → V → ℤ) (data : A → V)

/-- The assertions of `avl_insert_here` at a node. -/
def rightPlace (newData node : A) (child : Bool) : Bool :=
  let diff := compar (data newData) (data node)
  diff ≠ 0 ∧ -1 ≤ diff ∧ diff ≤ 1 ∧ (if diff > 0 then child = true else child = false)

/-- The descent of `avl_insert_here` to a free place, asserting the order on the way. -/
def hereLoop (s : AvlTree A) (newData : A) (child : Bool) : ℕ → A → Option A
  | 0, _ => none
  | n + 1, node =>
    if !rightPlace compar data newData node child then none
    else
      match (s.heap node).child child with
      | none => some node
      | some c => hereLoop s newData child n c

def avlInsertHere (fuel : ℕ) (s : AvlTree A) (newData here : A) (direction : Bool) :
    Option (AvlTree A) :=
  if !rightPlace compar data newData here direction then none
  else
    match (s.heap here).child direction with
    | none => avlInsert fuel s newData ⟨some here, direction⟩
    | some c =>
      (hereLoop compar data s newData (!direction) fuel c).bind fun node =>
        avlInsert fuel s newData ⟨some node, !direction⟩

/-- `avl_add`, which panics if the value is there. -/
def avlAdd (fuel : ℕ) (s : AvlTree A) (newNode : A) : Option (AvlTree A) :=
  match avlFind compar data fuel s (data newNode) with
  | some (none, index) => avlInsert fuel s newNode index
  | _ => none

end

/-- The loop of `avl_remove`, up from the parent of what has become lower. -/
def removeLoop : ℕ → AvlTree A → A → Bool → Option (AvlTree A)
  | 0, _, _, _ => none
  | n + 1, s, node, whichChild =>
    let oldBalance := (s.heap node).balance
    let newBalance := oldBalance - BalTree.sign whichChild
    let parent := (s.heap node).parent
    let whichChild := (s.heap node).childIndex
    -- do … while (parent != NULL)
    let again := fun s => match parent with
      | none => some s
      | some p => removeLoop n s p whichChild
    if oldBalance = 0 then some (s.setBalance node newBalance)
    else if newBalance = 0 then again (s.setBalance node newBalance)
    else
      match avlRotation s node newBalance with
      | none => none
      | some (s, false) => some s
      | some (s, true) => again s

/-- The common part of `avl_remove`: a node with at most one child leaves the tree. -/
def unlink (fuel : ℕ) (s : AvlTree A) (delete : A) : Option (AvlTree A) :=
  if s.numnodes = 0 then none
  else
    let s := { s with numnodes := s.numnodes - 1 }
    let parent := (s.heap delete).parent
    let whichChild := (s.heap delete).childIndex
    let node := if (s.heap delete).child false ≠ none then (s.heap delete).child false
      else (s.heap delete).child true
    let s := s.adopt node parent whichChild
    let s := s.relink parent whichChild node
    match parent with
    | none => some s
    | some p => removeLoop fuel s p whichChild

/-- `tmp = *node; *node = *delete; …`, up to the pointer to `node` from above. -/
def copyNodes (s : AvlTree A) (delete node tmp : A) (left : Bool) : AvlTree A :=
  let s := s.set tmp (s.heap node)
  let s := s.set node (s.heap delete)
  let s := if (s.heap node).child left = some node then s.setChild node left (some tmp) else s
  s.relink (s.heap node).parent (s.heap node).childIndex (some node)

/-- The first part: a node with two children changes places with its neighbour `node` on
    side `left`, and `tmp`, on the stack, takes the neighbour's place. -/
def swapNodes (s : AvlTree A) (delete node tmp : A) (left : Bool) : Option (AvlTree A) :=
  let s := copyNodes s delete node tmp left
  match (s.heap node).child left, (s.heap node).child (!left) with
  | some l, some r =>
    let s := s.setParent l (some node)
    let s := s.setParent r (some node)
    match (s.heap tmp).parent with
    | none => none
    | some p =>
      let s := s.setChild p (s.heap tmp).childIndex (some tmp)
      let whichChild : Bool := (s.heap tmp).child true ≠ none
      match (s.heap tmp).child whichChild with
      | none => some s
      | some c => some (s.setParent c (some tmp))
  | _, _ => none

def avlRemove (fuel : ℕ) (s : AvlTree A) (delete tmp : A) : Option (AvlTree A) :=
  match (s.heap delete).child false, (s.heap delete).child true with
  | some _, some _ =>
    let left := balance2child (s.heap delete).balance
    match (s.heap delete).child left with
    | none => none
    | some c =>
      (descend s (!left) fuel c).bind fun node =>
        (swapNodes s delete node tmp left).bind fun s => unlink fuel s tmp
  | _, _ => unlink fuel s delete

end

end Sirius.Avl
