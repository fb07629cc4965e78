import Mathlib.Logic.Function.Basic
import Riscv2os.Std.Cells
import Riscv2os.Std.RedBlack

/-!
# The symbol map

`c_map.c`, the red-black tree in which the emulator keeps the names of addresses. The nodes lie in a heap and
are linked by addresses; a node owns its key and its data. `malloc` may return any free address, which the
calls that allocate get as an argument; a loop takes as many rounds as `fuel` allows. The code for a left
child and its mirror image for a right child are one definition with the side as a parameter.
-/

namespace Riscv2os.Emulator

open Riscv2os.Std

/-- `c_map_node_t`. -/
structure MapNode (K V : Type) where
  key : Option K
  data : Option V
  left : Address
  right : Address
  up : Address
  color : Color

namespace MapNode

variable {K V : Type}

/-- `node->left` or `node->right`. -/
def child (d : Side) (n : MapNode K V) : Address :=
  match d with
  | .left => n.left
  | .right => n.right

/-- `node->left = a` or `node->right = a`. -/
def setChild (d : Side) (a : Address) (n : MapNode K V) : MapNode K V :=
  match d with
  | .left => { n with left := a }
  | .right => { n with right := a }

/-- `node->up = a`. -/
def setUp (a : Address) (n : MapNode K V) : MapNode K V := { n with up := a }

/-- `node->color = c`. -/
def setColor (c : Color) (n : MapNode K V) : MapNode K V := { n with color := c }

end MapNode

/-- `c_map_iter_t`. -/
structure MapIter where
  prev : Address
  node : Address
deriving DecidableEq, Repr

/-- What a call can fail with: a read through `NULL`, or of a node that was freed, an assertion, or a loop
that has not ended. -/
inductive MapFault where
  | null
  | dangling
  | assertion
  | endless
deriving DecidableEq, Repr

/-- `c_map_t`, with the heap. -/
structure CMap (K V : Type) where
  heap : Address → Option (MapNode K V)
  head : Address
  size : Nat
  itMost : Address
  itLeast : Address

namespace CMap

variable {K V : Type}

/-- A call that works on the map. -/
abbrev Op (K V : Type) := StateT (CMap K V) (Except MapFault)

/-- A call that does not return. -/
def fault {α : Type} (f : MapFault) : Op K V α := fun _ => .error f

/-- `*node`. -/
def load (a : Address) : Op K V (MapNode K V) := fun m =>
  if a = 0 then .error .null
  else match m.heap a with
    | some n => .ok (n, m)
    | none => .error .dangling

/-- A store to fields of `*node`. -/
def store (a : Address) (change : MapNode K V → MapNode K V) : Op K V Unit := do
  let n ← load a
  modify fun m => { m with heap := Function.update m.heap a (some (change n)) }

/-- `obj->head = a`. -/
def setHead (a : Address) : Op K V Unit := modify fun m => { m with head := a }

/-- `c_map_create_node`, at the address that `malloc` returns. A key or a value that is not given is blank. -/
def createNode [Inhabited K] [Inhabited V] (fresh : Address) (key : Option K) (value : Option V) :
    Op K V Unit :=
  modify fun m => { m with
    heap := Function.update m.heap fresh
      (some ⟨some (key.getD default), some (value.getD default), 0, 0, 0, .red⟩) }

/-- `c_map_delete_node`. -/
def deleteNode (a : Address) : Op K V Unit := do
  let _ ← load a
  modify fun m => { m with heap := Function.update m.heap a none }

/-- The colour of a child, which is black if there is none. -/
def colorOf (a : Address) : Op K V Color :=
  if a = 0 then pure .black else do return (← load a).color

section Rotations

/-! ## Rotations -/

/-- `if (child) child->up = node`. -/
def adopt (child node : Address) : Op K V Unit :=
  if child = 0 then pure () else store child (MapNode.setUp node)

/-- `node` takes the place of `old` as a child of `up`, if there is one. -/
def relink (up old node : Address) : Op K V Unit :=
  if up = 0 then pure ()
  else do
    if (← load up).right = old then store up (MapNode.setChild .right node)
    else store up (MapNode.setChild .left node)

/-- `if (node == obj->head) obj->head = r`. -/
def rehead (node r : Address) : Op K V Unit := do
  if node = (← get).head then setHead r else pure ()

/-- A rotation to this side. -/
def rotate (d : Side) (node : Address) : Op K V Address := do
  let n ← load node
  let r := n.child d.other
  let rl := (← load r).child d
  let up := n.up
  store r (MapNode.setUp up)
  store r (MapNode.setChild d node)
  store node (MapNode.setChild d.other rl)
  store node (MapNode.setUp r)
  adopt rl node
  relink up node r
  rehead node r
  return r

/-- `c_map_rotate_left`. -/
def rotateLeft : Address → Op K V Address := rotate .left

/-- `c_map_rotate_right`. -/
def rotateRight : Address → Op K V Address := rotate .right

/-- `node` and its parent are both children on side `d`: the grandparent is rotated away, and the two exchange
their colours. -/
def outer (d : Side) (grandparent : Address) : Op K V Unit := do
  let grandparent ← rotate d.other grandparent
  let g ← load grandparent
  let c1 := g.color
  let c2 := (← load (g.child d.other)).color
  store grandparent (MapNode.setColor c2)
  store (g.child d.other) (MapNode.setColor c1)

/-- `c_map_l_l`, `c_map_r_r`: the arguments that they do not use are left out. -/
def lL : Address → Op K V Unit := outer .left

@[inherit_doc lL]
def rR : Address → Op K V Unit := outer .right

/-- The parent is a child on side `d`, and `node` on the other: the parent is rotated first. -/
def inner (d : Side) (parent : Address) : Op K V Unit := do
  let parent ← rotate d parent
  let grandparent := (← load parent).up
  let _ ← load grandparent
  outer d grandparent

/-- `c_map_l_r`, `c_map_r_l`. -/
def lR : Address → Op K V Unit := inner .left

@[inherit_doc lR]
def rL : Address → Op K V Unit := inner .right

end Rotations

section FixColors

/-! ## After an insertion -/

/-- `c_map_fix_colors`. -/
def fixColors : Nat → Address → Op K V Unit
  | 0, _ => fault .endless
  | fuel + 1, node => do
      if node = (← get).head then store node (MapNode.setColor .black)
      else
        let parent := (← load node).up
        let p ← load parent
        if p.color = .black ∧ parent ≠ (← get).head then pure ()
        else
          let grandparent := p.up
          if p.up = 0 then pure ()
          else
            let g ← load grandparent
            let uncle := if g.left = parent then g.right else g.left
            if (← colorOf uncle) = .red then
              store uncle (MapNode.setColor .black)
              store parent (MapNode.setColor .black)
              store grandparent (MapNode.setColor .red)
              fixColors fuel grandparent
            else if parent = g.left ∧ node = p.left then lL grandparent
            else if parent = g.left ∧ node = p.right then lR parent
            else if parent = g.right ∧ node = p.left then rL parent
            else if parent = g.right ∧ node = p.right then rR grandparent
            else pure ()

end FixColors

section Calibrate

/-! ## The first and the last node -/

/-- `while (node->left) node = node->left`, or the same to the right. -/
def slide (d : Side) : Nat → Address → Op K V Address
  | 0, _ => fault .endless
  | fuel + 1, a => do
      let n ← load a
      if n.child d = 0 then return a else slide d fuel (n.child d)

/-- `c_map_calibrate`. -/
def calibrate (fuel : Nat) : Op K V Unit := do
  let head := (← get).head
  if head = 0 then modify fun m => { m with itLeast := 0, itMost := 0 }
  else
    let least ← slide .left fuel head
    let most ← slide .right fuel head
    modify fun m => { m with itLeast := least, itMost := most }

end Calibrate

section Calls

/-! ## The calls -/

variable (comparator : K → K → Int)

/-- `*key`. -/
def keyOf (n : MapNode K V) : Op K V K :=
  match n.key with
  | some k => pure k
  | none => fault .null

/-- `c_map_cmp_uint`. -/
def cmpUint (a b : BitVec 32) : Int := if a < b then -1 else if a > b then 1 else 0

/-- `c_map_new`, on a heap. -/
def new (heap : Address → Option (MapNode K V)) : CMap K V := ⟨heap, 0, 0, 0, 0⟩

/-- The loop of `c_map_insert` from `cur` on, with the rounds that `c_map_fix_colors` may take. -/
def insertFrom (rounds : Nat) (newNode : Address) : Nat → Address → Op K V Bool
  | 0, _ => fault .endless
  | fuel + 1, cur => do
      let c ← load cur
      let res := comparator (← keyOf (← load newNode)) (← keyOf c)
      if res = 0 then
        deleteNode newNode
        return false
      else
        let d : Side := if res < 0 then .left else .right
        if c.child d = 0 then
          store cur (MapNode.setChild d newNode)
          store newNode (MapNode.setUp cur)
          fixColors rounds newNode
          return true
        else insertFrom rounds newNode fuel (c.child d)

/-- `c_map_insert`. -/
def insert [Inhabited K] [Inhabited V] (fuel : Nat) (fresh : Address) (key : K) (value : V) : Op K V Bool := do
  createNode fresh (some key) (some value)
  modify fun m => { m with size := m.size + 1 }
  let head := (← get).head
  if head = 0 then
    setHead fresh
    store fresh (MapNode.setColor .black)
    calibrate fuel
    return true
  else
    if ← insertFrom comparator fuel fresh fuel head then
      calibrate fuel
      return true
    else return false

/-- The loop of `c_map_prev` that goes up: `while (node->up && node->left && node->left == prev)`. -/
def prevUp : Nat → Address → Address → Op K V Address
  | 0, _, _ => fault .endless
  | fuel + 1, prev, node => do
      let n ← load node
      if n.up ≠ 0 ∧ n.left ≠ 0 ∧ n.left = prev then prevUp fuel node n.up else return node

/-- `c_map_prev`: the node that `it` has then. -/
def prev (fuel : Nat) (node : Address) : Op K V Address := do
  if node = 0 then return 0
  else if node = (← get).itLeast then return 0
  else
    let n ← load node
    if n.left ≠ 0 then slide .right fuel n.left
    else if n.up = 0 then return 0
    else prevUp fuel node n.up

/-- The loop of `c_map_find`: the node with this key, or `NULL`. -/
def search (key : K) : Nat → Address → Op K V Address
  | 0, _ => fault .endless
  | fuel + 1, cur => do
      let c ← load cur
      let res := comparator key (← keyOf c)
      if res = 0 then return cur
      else
        let d : Side := if res < 0 then .left else .right
        if c.child d = 0 then return 0 else search key fuel (c.child d)

/-- `c_map_find`, with what `it` was. -/
def find (fuel : Nat) (it : MapIter) (key : K) : Op K V MapIter := do
  let head := (← get).head
  if head = 0 then return ⟨0, 0⟩
  else
    let cur ← search comparator key fuel head
    if cur = 0 then return { it with node := 0 } else return ⟨← prev fuel cur, cur⟩

/-- `c_map_empty`. -/
def empty (m : CMap K V) : Bool := m.size == 0

/-- `c_map_at_end`. -/
def atEnd (it : MapIter) : Bool := it.node == 0

/-- `c_map_iter_value`. -/
def iterValue (it : MapIter) : Op K V V := do
  match (← load it.node).data with
  | some v => pure v
  | none => fault .null

end Calls

section Erase

/-! ## Removal -/

/-- The sibling `w` of the node where a black node is missing, after a rotation that makes it black. -/
def blackSibling (d : Side) (p : Address) : Op K V (Address × Address) := do
  let w := (← load p).child d.other
  if (← load w).color = .red then
    store w (MapNode.setColor .black)
    store p (MapNode.setColor .red)
    let p := (← load (← rotate d p)).child d
    return (p, (← load p).child d.other)
  else return (p, w)

/-- The sibling, after a rotation that makes its far child red if that is black. -/
def redFar (d : Side) (p w : Address) (far : Color) : Op K V Address :=
  if far = .black then do
    store ((← load w).child d) (MapNode.setColor .black)
    store w (MapNode.setColor .red)
    let _ ← rotate d.other w
    return (← load p).child d.other
  else pure w

/-- `if (child) child->color = C_MAP_BLACK`. -/
def paintBlack (child : Address) : Op K V Unit :=
  if child = 0 then pure () else store child (MapNode.setColor .black)

/-- One of the children of `w` is red: the gap is filled. -/
def fillGap (d : Side) (p w : Address) (far : Color) : Op K V Unit := do
  let w ← redFar d p w far
  store w (MapNode.setColor (← load p).color)
  store p (MapNode.setColor .black)
  paintBlack ((← load w).child d.other)
  let _ ← rotate d p

/-- The loop of `c_map_delete_fixup`, up to the node with which it ends. -/
def fixupFrom : Nat → Address → Address → Side → Op K V Address
  | 0, _, _, _ => fault .endless
  | fuel + 1, node, p, d => do
      if node = (← get).head then return node
      else if (← load node).color = .red then return node
      else
        let (p, w) ← blackSibling d p
        let near ← colorOf ((← load w).child d)
        let far ← colorOf ((← load w).child d.other)
        if near = .black ∧ far = .black then
          store w (MapNode.setColor .red)
          let node := (← load node).up
          let p := (← load node).up
          if p = 0 then fixupFrom fuel node p d
          else fixupFrom fuel node p (if node = (← load p).left then .left else .right)
        else
          fillGap d p w far
          fixupFrom fuel (← get).head 0 d

/-- `c_map_delete_fixup`. -/
def deleteFixup (fuel : Nat) (node p : Address) (yIsLeft : Bool) : Op K V Unit :=
  if node = 0 then pure ()
  else do
    let node ← fixupFrom fuel node p (if yIsLeft then .left else .right)
    store node (MapNode.setColor .black)

/-- What `c_map_erase` calls the target: the last node of the left subtree if there are two children, else the
child, or the node itself. -/
def eraseTarget (fuel : Nat) (node : Address) (n : MapNode K V) : Op K V Address :=
  if n.left ≠ 0 ∧ n.right ≠ 0 then slide .right fuel n.left
  else if n.left ≠ 0 then pure n.left
  else if n.right ≠ 0 then pure n.right
  else pure node

/-- `y` leaves the tree, and `x` takes its place: whether that is to the left. -/
def unlink (y x up : Address) : Op K V Bool := do
  adopt x up
  if up = 0 then
    setHead x
    return false
  else if y = (← load up).left then
    store up (MapNode.setChild .left x)
    return true
  else
    store up (MapNode.setChild .right x)
    return false

/-- If `y` is not `node`, its key and its data go there. -/
def moveItem (node y : Address) : Op K V Unit :=
  if y = node then pure ()
  else do
    let yNode ← load y
    store node fun n => { n with key := yNode.key, data := yNode.data }
    store y fun n => { n with key := none, data := none }

/-- The blank node, at the place that is free below `up`. -/
def attachBlank [Inhabited K] [Inhabited V] (fresh target : Address) : Op K V Unit := do
  createNode fresh none none
  let up := (← load target).up
  if (← load up).left = 0 then store up (MapNode.setChild .left fresh)
  else store up (MapNode.setChild .right fresh)
  store fresh (MapNode.setUp (← load target).up)
  store fresh (MapNode.setColor .black)

/-- The blank node is taken out of the tree. -/
def detachBlank (blank : Address) : Op K V Unit := do
  let up := (← load blank).up
  if up = 0 then pure ()
  else if (← load up).left = blank then store up (MapNode.setChild .left 0)
  else store up (MapNode.setChild .right 0)

/-- If the node that left the tree was black, it is fixed up, with a blank node in its place if there was
none. -/
def fixBlack [Inhabited K] [Inhabited V] (fuel : Nat) (fresh target x xParent : Address) (yIsLeft : Bool)
    (color : Color) : Op K V Unit :=
  if color = .red then pure ()
  else if x = 0 then do
    attachBlank fresh target
    deleteFixup fuel fresh xParent yIsLeft
    detachBlank fresh
    deleteNode fresh
  else deleteFixup fuel x xParent yIsLeft

/-- `c_map_erase`. -/
def erase [Inhabited K] [Inhabited V] (fuel : Nat) (fresh : Address) (it : MapIter) : Op K V Unit := do
  let node := it.node
  let m ← get
  if m.size = 1 ∧ node = m.head then
    deleteNode node
    modify fun m => { m with head := 0, size := m.size - 1 }
  else
    let n ← load node
    let target ← eraseTarget fuel node n
    if target = 0 then fault .assertion
    else
      let y := if n.left = 0 ∨ n.right = 0 then node else target
      let yNode ← load y
      let x := if yNode.left = 0 then yNode.right else yNode.left
      let yIsLeft ← unlink y x yNode.up
      moveItem node y
      fixBlack fuel fresh target x yNode.up yIsLeft yNode.color
      modify fun m => { m with size := m.size - 1 }
      deleteNode y
      calibrate fuel

end Erase

end CMap

end Riscv2os.Emulator
