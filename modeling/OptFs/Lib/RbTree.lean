import Mathlib

/-!
# Red-black trees with parent links, as a zipper

The kernel's red-black tree (`lib/rbtree.c`) is intrusive: the caller walks down from the
root with its own comparisons, links a new red node where the walk ended
(`rb_link_node`), and calls `rb_insert_color`, which recolours and rotates on the way back
up through the parent links. `rb_erase` unlinks a node, moving its in-order successor into
its place when it has two children, and `__rb_erase_color` restores the colours, again
walking up; `rb_prev` and `rb_next` step through the in-order sequence.

A position in the tree is a zipper here: the subtree rooted there and the path back to the
root, parent first. Both colour fix-ups are loops over such a position, and a node is named
by its in-order index, which no rotation changes. The results:

* a fix-up only rotates and recolours, so it keeps the in-order sequence of values
  (`inorder_insertColor`, `inorder_eraseColor`);
* linking a value at a hole puts it at the hole's in-order index (`inorder_linkNode`),
  erasing the node at an index removes that value (`inorder_eraseAt`), and replacing a
  node's value replaces that value only (`inorder_setAt`);
* writing one of two neighbours and erasing the other, as a caller merging neighbouring
  entries does, leaves the value written in their place (`inorder_eraseAt_setAt_succ`,
  `inorder_eraseAt_succ_setAt`).

Where `lib/rbtree.c` follows a pointer that the colour invariant guarantees (a red parent
has a parent, the sibling of a node short of black exists), the zipper takes that case; on
a tree breaking the invariant the C code would dereference `NULL` there. Which side of its
parent a node hangs on is read off the path, where the C code compares pointers.
-/

namespace Lib.RbTree

/-- The colour of a node. -/
inductive Color where
  | red
  | black
deriving DecidableEq, Repr

/-- A subtree: missing (`NULL`), or a node with its colour, children and value. -/
inductive RbNode (α : Type) where
  | nil : RbNode α
  | node (c : Color) (l : RbNode α) (v : α) (r : RbNode α) : RbNode α
deriving DecidableEq, Repr

namespace RbNode

variable {α : Type}

/-- The values in tree order (`rb_first`, then `rb_next` until `NULL`). -/
def inorder : RbNode α → List α
  | nil => []
  | node _ l v r => l.inorder ++ v :: r.inorder

/-- The number of nodes. -/
def size : RbNode α → Nat
  | nil => 0
  | node _ l _ r => l.size + 1 + r.size

/-- `rb_is_red`: a missing node is black. -/
def isRed : RbNode α → Bool
  | node .red _ _ _ => true
  | _ => false

/-- `rb_set_black`, on a node that may be missing. -/
def setBlack : RbNode α → RbNode α
  | nil => nil
  | node _ l v r => node .black l v r

@[simp] theorem inorder_nil : (nil : RbNode α).inorder = [] := rfl

@[simp] theorem inorder_node (c : Color) (l : RbNode α) (v : α) (r : RbNode α) :
    (node c l v r).inorder = l.inorder ++ v :: r.inorder := rfl

@[simp] theorem inorder_setBlack (t : RbNode α) : t.setBlack.inorder = t.inorder := by
  cases t <;> rfl

@[simp] theorem length_inorder (t : RbNode α) : t.inorder.length = t.size := by
  induction t with
  | nil => rfl
  | node c l v r ihl ihr => simp [size, ihl, ihr]; omega

@[simp] theorem size_setBlack (t : RbNode α) : t.setBlack.size = t.size := by
  cases t <;> rfl

end RbNode

open RbNode

/-- One step of the path back to the root: the parent's colour and value, and the sibling on
the side the position does not take. -/
inductive Frame (α : Type) where
  /-- The position is the parent's left child; `r` is its right. -/
  | left (c : Color) (v : α) (r : RbNode α)
  /-- The position is the parent's right child; `l` is its left. -/
  | right (c : Color) (l : RbNode α) (v : α)
deriving DecidableEq, Repr

variable {α : Type}

/-- The parent rebuilt around the subtree at the position. -/
def Frame.plug : Frame α → RbNode α → RbNode α
  | .left c v r, t => .node c t v r
  | .right c l v, t => .node c l v t

/-- The parent's colour. -/
def Frame.color : Frame α → Color
  | .left c _ _ => c
  | .right c _ _ => c

/-- The sibling's size, which weighs a frame in the termination measure of the erase loop. -/
def Frame.siblingSize : Frame α → Nat
  | .left _ _ r => r.size
  | .right _ l _ => l.size

/-- The values a frame puts before the position in tree order. -/
def Frame.before : Frame α → List α
  | .left .. => []
  | .right _ l v => l.inorder ++ [v]

/-- The values a frame puts after the position in tree order. -/
def Frame.after : Frame α → List α
  | .left _ v r => v :: r.inorder
  | .right .. => []

/-- The whole tree, rebuilt from a position. -/
def plugPath (t : RbNode α) : List (Frame α) → RbNode α
  | [] => t
  | f :: path => plugPath (f.plug t) path

/-- The values before a position in tree order. -/
def pathBefore : List (Frame α) → List α
  | [] => []
  | f :: path => pathBefore path ++ f.before

/-- The values after a position in tree order. -/
def pathAfter : List (Frame α) → List α
  | [] => []
  | f :: path => f.after ++ pathAfter path

section Path

@[simp] theorem plugPath_nil (t : RbNode α) : plugPath t [] = t := rfl

@[simp] theorem plugPath_cons (t : RbNode α) (f : Frame α) (path : List (Frame α)) :
    plugPath t (f :: path) = plugPath (f.plug t) path := rfl

@[simp] theorem pathBefore_nil : pathBefore ([] : List (Frame α)) = [] := rfl

@[simp] theorem pathBefore_cons (f : Frame α) (path : List (Frame α)) :
    pathBefore (f :: path) = pathBefore path ++ f.before := rfl

@[simp] theorem pathAfter_nil : pathAfter ([] : List (Frame α)) = [] := rfl

@[simp] theorem pathAfter_cons (f : Frame α) (path : List (Frame α)) :
    pathAfter (f :: path) = f.after ++ pathAfter path := rfl

theorem pathBefore_append (p q : List (Frame α)) :
    pathBefore (p ++ q) = pathBefore q ++ pathBefore p := by
  induction p with
  | nil => simp
  | cons f p ih => simp [ih]

theorem pathAfter_append (p q : List (Frame α)) :
    pathAfter (p ++ q) = pathAfter p ++ pathAfter q := by
  induction p with
  | nil => simp
  | cons f p ih => simp [ih]

@[simp] theorem Frame.before_left (c : Color) (v : α) (r : RbNode α) :
    (Frame.left c v r).before = [] := rfl

@[simp] theorem Frame.before_right (c : Color) (l : RbNode α) (v : α) :
    (Frame.right c l v).before = l.inorder ++ [v] := rfl

@[simp] theorem Frame.after_left (c : Color) (v : α) (r : RbNode α) :
    (Frame.left c v r).after = v :: r.inorder := rfl

@[simp] theorem Frame.after_right (c : Color) (l : RbNode α) (v : α) :
    (Frame.right c l v).after = [] := rfl

@[simp] theorem Frame.inorder_plug (f : Frame α) (t : RbNode α) :
    (f.plug t).inorder = f.before ++ t.inorder ++ f.after := by
  cases f <;> simp [Frame.plug]

/-- Rebuilding from a position puts the subtree's values between the path's. -/
@[simp] theorem inorder_plugPath (t : RbNode α) (path : List (Frame α)) :
    (plugPath t path).inorder = pathBefore path ++ t.inorder ++ pathAfter path := by
  induction path generalizing t with
  | nil => simp
  | cons f path ih => simp [ih]

end Path

/-! ## `rb_insert_color` -/

/-- `rb_insert_color` from the red node with children `l`, `r` and value `v` at the
position `path`. Each round looks at the parent `p` and grandparent `g`: with a red uncle it
recolours and goes up to the grandparent; otherwise it rotates once or twice there and
stops. The root is set black at the end. -/
def insertColor (l : RbNode α) (v : α) (r : RbNode α) : List (Frame α) → RbNode α
  | [] => (RbNode.node .red l v r).setBlack
  -- the parent is the root, which is black
  | [p] => (p.plug (.node .red l v r)).setBlack
  | .left pc pv c :: .left gc gv u :: rest =>
    if pc = .black then (plugPath (.node .red l v r) (.left pc pv c :: .left gc gv u :: rest)).setBlack
    else if u.isRed then insertColor (.node .black (.node .red l v r) pv c) gv u.setBlack rest
    else (plugPath (.node .black (.node .red l v r) pv (.node .red c gv u)) rest).setBlack
  | .right pc a pv :: .left gc gv u :: rest =>
    if pc = .black then (plugPath (.node .red l v r) (.right pc a pv :: .left gc gv u :: rest)).setBlack
    else if u.isRed then insertColor (.node .black a pv (.node .red l v r)) gv u.setBlack rest
    -- the node is its parent's right child: rotate left at the parent first
    else (plugPath (.node .black (.node .red a pv l) v (.node .red r gv u)) rest).setBlack
  | .right pc a pv :: .right gc u gv :: rest =>
    if pc = .black then (plugPath (.node .red l v r) (.right pc a pv :: .right gc u gv :: rest)).setBlack
    else if u.isRed then insertColor u.setBlack gv (.node .black a pv (.node .red l v r)) rest
    else (plugPath (.node .black (.node .red u gv a) pv (.node .red l v r)) rest).setBlack
  | .left pc pv c :: .right gc u gv :: rest =>
    if pc = .black then (plugPath (.node .red l v r) (.left pc pv c :: .right gc u gv :: rest)).setBlack
    else if u.isRed then insertColor u.setBlack gv (.node .black (.node .red l v r) pv c) rest
    -- the node is its parent's left child: rotate right at the parent first
    else (plugPath (.node .black (.node .red u gv l) v (.node .red r pv c)) rest).setBlack

/-- The colour fix-up after an insertion keeps the tree order. -/
theorem inorder_insertColor (l : RbNode α) (v : α) (r : RbNode α) (path : List (Frame α)) :
    (insertColor l v r path).inorder = pathBefore path ++ l.inorder ++ v :: r.inorder ++ pathAfter path := by
  fun_induction insertColor l v r path <;> simp_all

/-- `rb_link_node` of a new red leaf at the hole `path`, then `rb_insert_color`. -/
def linkNode (v : α) (path : List (Frame α)) : RbNode α :=
  insertColor .nil v .nil path

theorem inorder_linkNode (v : α) (path : List (Frame α)) :
    (linkNode v path).inorder = pathBefore path ++ v :: pathAfter path := by
  simp [linkNode, inorder_insertColor]

/-! ## `rb_erase` -/

/-- What a round of `__rb_erase_color` leads to: another round at a new position, or the
finished tree. -/
inductive EraseStep (α : Type) where
  | next (t : RbNode α) (path : List (Frame α))
  | done (tree : RbNode α)

/-- The second half of a round of `__rb_erase_color` for a node `t` that is its parent's left
child, with the sibling `other` black: with both of `other`'s children black, recolour it and
go up; otherwise rotate at the parent (after a right rotation at `other` if only its left
child is red) and finish. -/
def finishLeft (pc : Color) (t : RbNode α) (pv : α) (other : RbNode α)
    (path : List (Frame α)) : EraseStep α :=
  match other with
  | .nil => .done (plugPath t (.left pc pv .nil :: path))
  | .node _ ol ov or =>
    if or.isRed then .done (plugPath (.node pc (.node .black t pv ol) ov or.setBlack) path).setBlack
    else match ol with
      | .node .red oll olv olr =>
        .done (plugPath (.node pc (.node .black t pv oll) olv (.node .black olr ov or)) path).setBlack
      | ol => .next (.node pc t pv (.node .red ol ov or)) path

/-- The same for a node that is its parent's right child. -/
def finishRight (pc : Color) (other : RbNode α) (pv : α) (t : RbNode α)
    (path : List (Frame α)) : EraseStep α :=
  match other with
  | .nil => .done (plugPath t (.right pc .nil pv :: path))
  | .node _ ol ov or =>
    if ol.isRed then .done (plugPath (.node pc ol.setBlack ov (.node .black or pv t)) path).setBlack
    else match or with
      | .node .red orl orv orr =>
        .done (plugPath (.node pc (.node .black ol ov orl) orv (.node .black orr pv t)) path).setBlack
      | or => .next (.node pc (.node .red ol ov or) pv t) path

/-- One round of the `__rb_erase_color` loop at the position `(t, path)`, where `t` is one
black short. A red `t`, or the root, ends the loop and is set black; a red sibling is first
rotated above the parent, which turns red, and the round goes on with the new sibling. -/
def eraseColorStep (t : RbNode α) : List (Frame α) → EraseStep α
  | [] => .done t.setBlack
  | f :: path =>
    if t.isRed then .done (plugPath t.setBlack (f :: path))
    else match f with
      | .left _ pv (.node .red ol ov or) => finishLeft .red t pv ol (.left .black ov or :: path)
      | .left pc pv other => finishLeft pc t pv other path
      | .right _ (.node .red ol ov or) pv => finishRight .red or pv t (.right .black ol ov :: path)
      | .right pc other pv => finishRight pc other pv t path

/-- The weight of a path: each frame counts one more than twice its sibling's size. A round
that goes up drops a frame, or trades a red sibling's frame for two lighter ones. -/
def pathWeight : List (Frame α) → Nat
  | [] => 0
  | f :: path => 2 * f.siblingSize + 1 + pathWeight path

theorem finishLeft_weight {pc : Color} {t : RbNode α} {pv : α} {other : RbNode α}
    {path : List (Frame α)} {t' : RbNode α} {path' : List (Frame α)}
    (h : finishLeft pc t pv other path = .next t' path') : path' = path := by
  unfold finishLeft at h
  split at h
  · cases h
  · split at h
    · cases h
    · split at h
      · cases h
      · cases h; rfl

theorem finishRight_weight {pc : Color} {t : RbNode α} {pv : α} {other : RbNode α}
    {path : List (Frame α)} {t' : RbNode α} {path' : List (Frame α)}
    (h : finishRight pc other pv t path = .next t' path') : path' = path := by
  unfold finishRight at h
  split at h
  · cases h
  · split at h
    · cases h
    · split at h
      · cases h
      · cases h; rfl

/-- A round that goes on does so on a lighter path. -/
theorem eraseColorStep_weight {t : RbNode α} {path : List (Frame α)} {t' : RbNode α}
    {path' : List (Frame α)} (h : eraseColorStep t path = .next t' path') :
    pathWeight path' < pathWeight path := by
  cases path with
  | nil => cases h
  | cons f path =>
    rw [eraseColorStep.eq_def] at h
    dsimp only at h
    by_cases hr : t.isRed
    · rw [if_pos hr] at h
      cases h
    · rw [if_neg hr] at h
      split at h
      · -- a red sibling traded for two lighter frames
        rw [finishLeft_weight h]
        simp only [pathWeight, Frame.siblingSize, size]
        omega
      · rw [finishLeft_weight h]
        simp only [pathWeight]
        omega
      · rw [finishRight_weight h]
        simp only [pathWeight, Frame.siblingSize, size]
        omega
      · rw [finishRight_weight h]
        simp only [pathWeight]
        omega

/-- `__rb_erase_color`: rounds of `eraseColorStep` until one finishes. -/
def eraseColor (t : RbNode α) (path : List (Frame α)) : RbNode α :=
  match hstep : eraseColorStep t path with
  | .done tree => tree
  | .next t' path' =>
    have := eraseColorStep_weight hstep
    eraseColor t' path'
termination_by pathWeight path

/-- What a round leads to has the tree order of the position it started from. -/
def EraseStep.Keeps (t : RbNode α) (path : List (Frame α)) : EraseStep α → Prop
  | .next t' path' => (plugPath t' path').inorder = (plugPath t path).inorder
  | .done tree => tree.inorder = (plugPath t path).inorder

theorem finishLeft_keeps (pc : Color) (t : RbNode α) (pv : α) (other : RbNode α)
    (path : List (Frame α)) :
    (finishLeft pc t pv other path).Keeps t (.left pc pv other :: path) := by
  unfold finishLeft
  split
  · simp [EraseStep.Keeps]
  · split
    · simp [EraseStep.Keeps, Frame.plug]
    · split <;> simp [EraseStep.Keeps, Frame.plug]

theorem finishRight_keeps (pc : Color) (other : RbNode α) (pv : α) (t : RbNode α)
    (path : List (Frame α)) :
    (finishRight pc other pv t path).Keeps t (.right pc other pv :: path) := by
  unfold finishRight
  split
  · simp [EraseStep.Keeps]
  · split
    · simp [EraseStep.Keeps, Frame.plug]
    · split <;> simp [EraseStep.Keeps, Frame.plug]

/-- Each round of the erase fix-up keeps the tree order; a red sibling's rotation is one
more rotation before the round's own. -/
theorem eraseColorStep_keeps (t : RbNode α) (path : List (Frame α)) :
    (eraseColorStep t path).Keeps t path := by
  cases path with
  | nil => simp [eraseColorStep, EraseStep.Keeps]
  | cons f path =>
    rw [eraseColorStep.eq_def]
    dsimp only
    by_cases hr : t.isRed
    · rw [if_pos hr]
      simp [EraseStep.Keeps]
    · rw [if_neg hr]
      cases f with
      | left pc pv other =>
        match other with
        | .node .red ol ov or =>
          -- the rotation of the red sibling, then the round's own
          dsimp only
          have hkeep := finishLeft_keeps .red t pv ol (.left .black ov or :: path)
          generalize finishLeft .red t pv ol (.left .black ov or :: path) = res at hkeep ⊢
          cases res <;> simp only [EraseStep.Keeps] at hkeep ⊢ <;> rw [hkeep] <;> simp
        | .node .black ol ov or => exact finishLeft_keeps _ _ _ _ _
        | .nil => exact finishLeft_keeps _ _ _ _ _
      | right pc other pv =>
        match other with
        | .node .red ol ov or =>
          dsimp only
          have hkeep := finishRight_keeps .red or pv t (.right .black ol ov :: path)
          generalize finishRight .red or pv t (.right .black ol ov :: path) = res at hkeep ⊢
          cases res <;> simp only [EraseStep.Keeps] at hkeep ⊢ <;> rw [hkeep] <;> simp
        | .node .black ol ov or => exact finishRight_keeps _ _ _ _ _
        | .nil => exact finishRight_keeps _ _ _ _ _

/-- The colour fix-up after an erase keeps the tree order. -/
theorem eraseColor_of_done {t tree : RbNode α} {path : List (Frame α)}
    (h : eraseColorStep t path = .done tree) : eraseColor t path = tree := by
  rw [eraseColor]
  split <;> simp_all

theorem eraseColor_of_next {t t' : RbNode α} {path path' : List (Frame α)}
    (h : eraseColorStep t path = .next t' path') : eraseColor t path = eraseColor t' path' := by
  rw [eraseColor]
  split <;> simp_all

/-- The colour fix-up after an erase keeps the tree order: by induction on its rounds. -/
theorem inorder_eraseColor (t : RbNode α) (path : List (Frame α)) :
    (eraseColor t path).inorder = (plugPath t path).inorder := by
  induction t, path using eraseColor.induct with
  | case1 t path tree h =>
    have hkeep := eraseColorStep_keeps t path
    rw [h] at hkeep
    rw [eraseColor_of_done h]
    exact hkeep
  | case2 t path t' path' h _ ih =>
    have hkeep := eraseColorStep_keeps t path
    rw [h] at hkeep
    rw [eraseColor_of_next h, ih]
    exact hkeep

/-- The leftmost node under a node `(c, l, v, r)` at `path`: its colour, value, right child
and position. -/
def leftmost : Color → RbNode α → α → RbNode α → List (Frame α) →
    Color × α × RbNode α × List (Frame α)
  | c, .nil, v, r, path => (c, v, r, path)
  | c, .node lc ll lv lr, v, r, path => leftmost lc ll lv lr (.left c v r :: path)

/-- The leftmost node comes first in its subtree, and its position has nothing more before
it than the subtree's. -/
theorem leftmost_spec (c : Color) (l : RbNode α) (v : α) (r : RbNode α) (path : List (Frame α)) :
    pathBefore (leftmost c l v r path).2.2.2 = pathBefore path ∧
      (leftmost c l v r path).2.1 :: (leftmost c l v r path).2.2.1.inorder ++
          pathAfter (leftmost c l v r path).2.2.2 =
        (node c l v r).inorder ++ pathAfter path := by
  induction l generalizing c v r path with
  | nil => simp [leftmost]
  | node lc ll lv lr ihl _ =>
    obtain ⟨h₁, h₂⟩ := ihl lc lv lr (.left c v r :: path)
    refine ⟨by simpa [leftmost] using h₁, ?_⟩
    simp only [leftmost]
    rw [h₂]
    simp

/-- `rb_erase` of the node at the position `(n, path)`. With at most one child, the child
takes its place; with two, its in-order successor (the leftmost node of its right subtree)
does, with its colour, and the successor's right child takes the successor's place. When
the node unlinked from its place was black, `__rb_erase_color` runs from that place. -/
def rbErase : RbNode α → List (Frame α) → RbNode α
  | .nil, path => plugPath .nil path
  | .node c .nil _ r, path => if c = .black then eraseColor r path else plugPath r path
  | .node c l _ .nil, path => if c = .black then eraseColor l path else plugPath l path
  | .node c l _ (.node rc rl rv rr), path =>
    match leftmost rc rl rv rr [] with
    | (sc, sv, sr, spath) =>
      if sc = .black then eraseColor sr (spath ++ .right c l sv :: path)
      else plugPath sr (spath ++ .right c l sv :: path)

/-- Erasing the node at a position removes its value from the tree order. -/
theorem inorder_rbErase (c : Color) (l : RbNode α) (v : α) (r : RbNode α) (path : List (Frame α)) :
    (rbErase (.node c l v r) path).inorder = pathBefore path ++ l.inorder ++ r.inorder ++ pathAfter path := by
  match l, r with
  | .nil, r =>
    simp only [rbErase]
    split <;> simp [inorder_eraseColor]
  | .node lc ll lv lr, .nil =>
    simp only [rbErase]
    split <;> simp [inorder_eraseColor]
  | .node lc ll lv lr, .node rc rl rv rr =>
    have hspec := leftmost_spec rc rl rv rr []
    simp only [rbErase]
    generalize leftmost rc rl rv rr [] = res at hspec ⊢
    obtain ⟨sc, sv, sr, sp⟩ := res
    obtain ⟨hbefore, hafter⟩ := hspec
    have hright : (node rc rl rv rr).inorder = sv :: (sr.inorder ++ pathAfter sp) := by
      simpa using hafter.symm
    -- the successor's right child sits where the right subtree less its first value was
    have hpos : (plugPath sr (sp ++ .right c (.node lc ll lv lr) sv :: path)).inorder =
        pathBefore path ++ (node lc ll lv lr).inorder ++ (node rc rl rv rr).inorder ++
          pathAfter path := by
      rw [inorder_plugPath, pathBefore_append, pathAfter_append, hbefore, hright]
      simp
    dsimp only
    split <;> simpa [inorder_eraseColor] using hpos

/-! ## Nodes by in-order index -/

/-- The position of the node at in-order index `i` below `path`, if there is one. -/
def focus : RbNode α → Nat → List (Frame α) → Option (RbNode α × List (Frame α))
  | .nil, _, _ => none
  | .node c l v r, i, path =>
    if i < l.size then focus l i (.left c v r :: path)
    else if i = l.size then some (.node c l v r, path)
    else focus r (i - l.size - 1) (.right c l v :: path)

/-- A found position holds a node, and splits the tree order at the index. -/
theorem focus_spec {t : RbNode α} {i : Nat} {path : List (Frame α)} {n : RbNode α}
    {p : List (Frame α)} (h : focus t i path = some (n, p)) :
    ∃ c l v r, n = .node c l v r ∧
      pathBefore p ++ l.inorder ++ v :: r.inorder ++ pathAfter p =
        pathBefore path ++ t.inorder ++ pathAfter path ∧
      (pathBefore p ++ l.inorder).length = (pathBefore path).length + i := by
  induction t generalizing i path with
  | nil => cases h
  | node c l v r ihl ihr =>
    unfold focus at h
    split at h
    · obtain ⟨c', l', v', r', hn, hsplit, hlen⟩ := ihl h
      exact ⟨c', l', v', r', hn, by simpa using hsplit, by simpa using hlen⟩
    · split at h
      · cases h
        refine ⟨c, l, v, r, rfl, by simp, ?_⟩
        simp_all
      · obtain ⟨c', l', v', r', hn, hsplit, hlen⟩ := ihr h
        refine ⟨c', l', v', r', hn, by simpa using hsplit, ?_⟩
        simp only [pathBefore_cons, Frame.before_right, List.length_append, length_inorder,
          List.length_singleton] at hlen ⊢
        omega

/-- Every index below the size is found. -/
theorem focus_isSome {t : RbNode α} {i : Nat} (path : List (Frame α)) (hi : i < t.size) :
    (focus t i path).isSome := by
  induction t generalizing i path with
  | nil => cases hi
  | node c l v r ihl ihr =>
    unfold focus
    split
    · exact ihl _ ‹_›
    · split
      · rfl
      · exact ihr _ (by simp only [size] at hi; omega)

/-- `rb_erase` of the node at in-order index `i`. -/
def eraseAt (t : RbNode α) (i : Nat) : RbNode α :=
  match focus t i [] with
  | some (n, path) => rbErase n path
  | none => t

/-- Replacing the value of the node at in-order index `i` (the caller writing to its entry). -/
def setAt (t : RbNode α) (i : Nat) (x : α) : RbNode α :=
  match focus t i [] with
  | some (.node c l _ r, path) => plugPath (.node c l x r) path
  | _ => t

/-- The value of the node at in-order index `i` (`rb_prev` and `rb_next` step the index). -/
def getAt (t : RbNode α) (i : Nat) : Option α :=
  match focus t i [] with
  | some (.node _ _ v _, _) => some v
  | _ => none

/-- The node at an index below the size, with the tree order split around it. -/
theorem focus_root {t : RbNode α} {i : Nat} (hi : i < t.size) :
    ∃ c l v r p, focus t i [] = some (.node c l v r, p) ∧
      t.inorder = (pathBefore p ++ l.inorder) ++ v :: (r.inorder ++ pathAfter p) ∧
      (pathBefore p ++ l.inorder).length = i := by
  obtain ⟨⟨n, p⟩, hf⟩ := Option.isSome_iff_exists.mp (focus_isSome [] hi)
  obtain ⟨c, l, v, r, rfl, hsplit, hlen⟩ := focus_spec hf
  refine ⟨c, l, v, r, p, hf, ?_, by simpa using hlen⟩
  simpa using hsplit.symm

/-- No node sits at an index past the end. -/
theorem focus_eq_none_of_le {t : RbNode α} {i : Nat} (hi : t.size ≤ i) : focus t i [] = none := by
  cases hf : focus t i [] with
  | none => rfl
  | some np =>
    obtain ⟨c, l, v, r, -, hsplit, hlen⟩ := focus_spec hf
    have hsize := congrArg List.length hsplit
    simp only [pathBefore_nil, pathAfter_nil, List.nil_append, List.append_nil, List.length_nil,
      zero_add, length_inorder] at hsize hlen
    simp only [List.length_append, List.length_cons] at hsize hlen
    omega

theorem inorder_eraseAt (t : RbNode α) (i : Nat) :
    (eraseAt t i).inorder = t.inorder.eraseIdx i := by
  by_cases hi : i < t.size
  · obtain ⟨c, l, v, r, p, hf, hsplit, hlen⟩ := focus_root hi
    rw [eraseAt, hf]
    dsimp only
    rw [inorder_rbErase, hsplit, ← hlen, List.eraseIdx_append_of_length_le le_rfl, Nat.sub_self,
      List.eraseIdx_cons_zero]
    simp
  · rw [eraseAt, focus_eq_none_of_le (by omega)]
    dsimp only
    rw [List.eraseIdx_of_length_le (by simp; omega)]

theorem inorder_setAt (t : RbNode α) (i : Nat) (x : α) :
    (setAt t i x).inorder = t.inorder.set i x := by
  by_cases hi : i < t.size
  · obtain ⟨c, l, v, r, p, hf, hsplit, hlen⟩ := focus_root hi
    rw [setAt, hf]
    dsimp only
    rw [inorder_plugPath, hsplit, ← hlen, List.set_append_right _ _ le_rfl, Nat.sub_self]
    simp
  · rw [setAt, focus_eq_none_of_le (by omega)]
    dsimp only
    rw [List.set_eq_of_length_le (by simp; omega)]

theorem getAt_eq (t : RbNode α) (i : Nat) : getAt t i = t.inorder[i]? := by
  by_cases hi : i < t.size
  · obtain ⟨c, l, v, r, p, hf, hsplit, hlen⟩ := focus_root hi
    rw [getAt, hf]
    dsimp only
    rw [hsplit, ← hlen, List.getElem?_append_right le_rfl, Nat.sub_self]
    rfl
  · rw [getAt, focus_eq_none_of_le (by omega)]
    dsimp only
    rw [List.getElem?_eq_none (by simp; omega)]

/-- Two values at consecutive indices split the tree order around them. -/
theorem inorder_split_of_getAt {t : RbNode α} {k : Nat} {a b : α} (ha : getAt t k = some a)
    (hb : getAt t (k + 1) = some b) :
    ∃ pre post, t.inorder = pre ++ a :: b :: post ∧ pre.length = k := by
  rw [getAt_eq] at ha hb
  obtain ⟨hk, rfl⟩ := List.getElem?_eq_some_iff.mp ha
  obtain ⟨hk1, rfl⟩ := List.getElem?_eq_some_iff.mp hb
  refine ⟨t.inorder.take k, t.inorder.drop (k + 2), ?_, by rw [List.length_take]; omega⟩
  conv_lhs => rw [← List.take_append_drop k t.inorder, List.drop_eq_getElem_cons hk,
    List.drop_eq_getElem_cons hk1]

/-- Writing the second of two neighbours and erasing the first leaves the value written in
their place. -/
theorem inorder_eraseAt_setAt_succ {t : RbNode α} {pre post : List α} {a b : α}
    (h : t.inorder = pre ++ a :: b :: post) (m : α) :
    (eraseAt (setAt t (pre.length + 1) m) pre.length).inorder = pre ++ m :: post := by
  rw [inorder_eraseAt, inorder_setAt, h, List.set_append_right _ _ (by omega),
    List.eraseIdx_append_of_length_le le_rfl]
  simp

/-- Writing the first of two neighbours and erasing the second leaves the value written in
their place. -/
theorem inorder_eraseAt_succ_setAt {t : RbNode α} {pre post : List α} {a b : α}
    (h : t.inorder = pre ++ a :: b :: post) (m : α) :
    (eraseAt (setAt t pre.length m) (pre.length + 1)).inorder = pre ++ m :: post := by
  rw [inorder_eraseAt, inorder_setAt, h, List.set_append_right _ _ le_rfl,
    List.eraseIdx_append_of_length_le (by omega)]
  simp

end Lib.RbTree
