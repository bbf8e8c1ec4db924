import ClassCheck.Proofs.Frames
import Mathlib.Data.Finmap

/-!
# Scopes as stacks of finite maps

A scope lists its bindings frame by frame. What can be observed of it is less: for each frame a
finite map from names to bindings, and the number of loops around it. The operations of a scope
are those of a stack of such maps, one by one and hence in every sequence. Frames that are put on
and taken away again leave the frames under them as they were, but for values stored meanwhile.
-/

namespace ClassCheck

/-! ## Stacks of finite maps -/

/-- The operations that change a scope. -/
inductive ScopeOp where
  /-- Declare a name in the innermost frame. -/
  | define (b : Binding)
  /-- Store a value under a name. -/
  | store (name : String)
  /-- Put a frame inside. -/
  | push
  /-- Take the innermost frame away. -/
  | pop
  /-- Count one loop more. -/
  | enterLoop
  /-- Count one loop less. -/
  | exitLoop
  deriving DecidableEq, Repr

/-- What can be observed of a frame. -/
structure Layer where
  /-- The bindings by name. -/
  names : Finmap fun _ : String => Binding
  /-- The number of loops around the frame. -/
  loops : Nat

namespace Layer

/-- Bind a name unless it is bound already. -/
def declare (b : Binding) (l : Layer) : Layer :=
  if b.name ∈ l.names then l else { l with names := l.names.insert b.name b }

/-- Note in the innermost layer that has a name that a value has been stored under it. -/
def store (name : String) : List Layer → List Layer
  | [] => []
  | l :: ls =>
    match l.names.lookup name with
    | some b => { l with names := l.names.insert name { b with initialized := true } } :: ls
    | none => l :: store name ls

/-- An operation on a stack of layers, the innermost first. -/
def apply : ScopeOp → List Layer → List Layer
  | _, [] => []
  | .define b, l :: ls => l.declare b :: ls
  | .store name, l :: ls => store name (l :: ls)
  | .push, l :: ls => ⟨∅, l.loops⟩ :: l :: ls
  | .pop, [l] => [l]
  | .pop, _ :: l :: ls => l :: ls
  | .enterLoop, l :: ls => { l with loops := l.loops + 1 } :: ls
  | .exitLoop, l :: ls => { l with loops := l.loops - 1 } :: ls

/-- Operations in order. -/
def run (ops : List ScopeOp) (ls : List Layer) : List Layer :=
  ops.foldl (fun ls op => apply op ls) ls

/-- The innermost layer that has a name binds it so. -/
def Binds (ls : List Layer) (name : String) (b : Binding) : Prop :=
  ∃ inside l outside, ls = inside ++ l :: outside ∧ (∀ k ∈ inside, name ∉ k.names) ∧
    l.names.lookup name = some b

end Layer

/-! ## The frames of a scope -/

namespace Frame

/-- What can be observed of a frame. -/
def layer (f : Frame) : Layer :=
  ⟨(f.bindings.map fun b => (⟨b.name, b⟩ : Sigma fun _ : String => Binding)).toFinmap, f.loopDepth⟩

/-- A layer binds the names that its frame does. -/
@[simp] theorem lookup_layer (f : Frame) (name : String) :
    f.layer.names.lookup name = f.lookup? name := by
  rw [layer, Finmap.dlookup_list_toFinmap, lookup?]
  induction f.bindings with
  | nil => rfl
  | cons b bs ih =>
    rw [List.map_cons, List.find?_cons]
    by_cases hname : b.name = name
    · subst hname
      rw [List.dlookup_cons_eq, decide_eq_true rfl]
    · rw [List.dlookup_cons_ne _ _ (Ne.symm hname), ih, decide_eq_false hname]

private theorem mem_layer_iff (f : Frame) (name : String) :
    name ∈ f.layer.names ↔ (f.lookup? name).isSome = true := by
  rw [← Finmap.lookup_isSome, lookup_layer]

private theorem layer_eq {f : Frame} {l : Layer} (hloops : f.loopDepth = l.loops)
    (hnames : ∀ name, f.lookup? name = l.names.lookup name) : f.layer = l := by
  have hmaps : f.layer.names = l.names :=
    Finmap.ext_lookup fun name => by rw [lookup_layer, hnames]
  obtain ⟨names, loops⟩ := l
  exact congr (congrArg Layer.mk hmaps) hloops

/-- A declaration adds one name to the layer. -/
theorem layer_append {f : Frame} {b : Binding} (h : (f.lookup? b.name).isSome = false) :
    layer ⟨f.bindings ++ [b], f.loopDepth⟩ = f.layer.declare b := by
  have hnew : b.name ∉ f.layer.names := by
    rw [mem_layer_iff, h]
    exact Bool.false_ne_true
  rw [Layer.declare, if_neg hnew]
  refine layer_eq rfl fun name => ?_
  rw [lookup?, List.find?_append]
  by_cases hname : name = b.name
  · subst hname
    have hnone : f.bindings.find? (·.name = b.name) = none := by simpa [lookup?] using h
    rw [Finmap.lookup_insert, hnone]
    simp
  · rw [Finmap.lookup_insert_of_ne _ hname, lookup_layer, lookup?]
    have hother : [b].find? (·.name = name) = none := by simpa using Ne.symm hname
    rw [hother, Option.or_none]

/-- Storing a value changes the binding of its name only. -/
theorem lookup?_mark (f : Frame) (name other : String) :
    (f.mark name).lookup? other = (f.lookup? other).map fun b =>
      if b.name = name then { b with initialized := true } else b := by
  rw [lookup?, mark, List.find?_map, lookup?]
  congr 2
  funext b
  simp only [Function.comp_apply]
  split <;> rfl

/-- In the layer the name is bound anew. -/
theorem layer_mark {f : Frame} {name : String} {b : Binding} (h : f.lookup? name = some b) :
    (f.mark name).layer =
      { f.layer with names := f.layer.names.insert name { b with initialized := true } } := by
  refine layer_eq rfl fun other => ?_
  rw [lookup?_mark]
  by_cases hother : other = name
  · subst hother
    have hb : b.name = other := by simpa using List.find?_some h
    rw [Finmap.lookup_insert, h, Option.map_some, if_pos hb]
  · rw [Finmap.lookup_insert_of_ne _ hother, lookup_layer]
    cases hc : f.lookup? other with
    | none => rfl
    | some c =>
      have hname : c.name = other := by simpa using List.find?_some hc
      rw [Option.map_some, if_neg (by rw [hname]; exact hother)]

end Frame

namespace Scope

/-- What can be observed of a scope, from the inside out. -/
def layers (s : Scope) : List Layer := s.frames.map Frame.layer

/-- An operation on a scope; a declaration that fails changes nothing. -/
def apply : ScopeOp → Scope → Scope
  | .define b, s => (s.define? b).getD s
  | .store name, s => s.markInitialized name
  | .push, s => s.push
  | .pop, s => s.pop
  | .enterLoop, s => s.enterLoop
  | .exitLoop, s => s.exitLoop

/-- Operations in order. -/
def run (ops : List ScopeOp) (s : Scope) : Scope := ops.foldl (fun s op => apply op s) s

/-- Operations are run one after another. -/
@[simp] theorem run_cons (op : ScopeOp) (ops : List ScopeOp) (s : Scope) :
    s.run (op :: ops) = (s.apply op).run ops := rfl

/-- Operations in two parts are run part by part. -/
theorem run_append (ops ops' : List ScopeOp) (s : Scope) :
    s.run (ops ++ ops') = (s.run ops).run ops' := List.foldl_append

private theorem frames_markInitialized (s : Scope) (name : String) :
    (s.markInitialized name).frames = markIn name s.frames := by
  rw [show s.frames = s.inner :: s.outer from rfl, markIn, markInitialized]
  split <;> rfl

/-- Storing a value in frames is storing it in their layers. -/
theorem layers_markIn (name : String) (fs : List Frame) :
    (markIn name fs).map Frame.layer = Layer.store name (fs.map Frame.layer) := by
  induction fs with
  | nil => rfl
  | cons f fs ih =>
    rw [markIn, List.map_cons, Layer.store, Frame.lookup_layer]
    cases h : f.lookup? name with
    | none => exact congrArg (f.layer :: ·) ih
    | some b => exact congrArg (· :: fs.map Frame.layer) (Frame.layer_mark h)

/-- Declaring a name in a scope is declaring it in its innermost layer. -/
theorem layers_define? (s : Scope) (b : Binding) :
    ((s.define? b).getD s).layers = s.inner.layer.declare b :: s.outer.map Frame.layer := by
  unfold define? lookupLocal?
  cases h : (s.inner.lookup? b.name).isSome with
  | true =>
    have hold : b.name ∈ s.inner.layer.names := (s.inner.mem_layer_iff b.name).mpr h
    rw [Layer.declare, if_pos hold]
    rfl
  | false => exact congrArg (· :: s.outer.map Frame.layer) (Frame.layer_append h)

/-- Every operation of a scope is that of the stack of its layers. -/
theorem layers_apply (op : ScopeOp) (s : Scope) :
    (s.apply op).layers = Layer.apply op s.layers := by
  cases op with
  | define b => exact s.layers_define? b
  | store name =>
    rw [apply, layers, frames_markInitialized, layers_markIn]
    rfl
  | push => rfl
  | pop =>
    obtain ⟨inner, outer⟩ := s
    cases outer <;> rfl
  | enterLoop => rfl
  | exitLoop => rfl

/-- So operations in order are those of a stack of layers. -/
theorem layers_run (ops : List ScopeOp) (s : Scope) :
    (s.run ops).layers = Layer.run ops s.layers := by
  induction ops generalizing s with
  | nil => rfl
  | cons op ops ih =>
    rw [run_cons, ih, layers_apply]
    rfl

/-! ## Looking up and declaring -/

/-- A name is found just as the layers bind it. -/
theorem lookup?_eq_some_iff (s : Scope) (name : String) (b : Binding) :
    s.lookup? name = some b ↔ Layer.Binds s.layers name b := by
  rw [lookup?, layers, Layer.Binds]
  induction s.frames with
  | nil => simp
  | cons f fs ih =>
    rw [List.findSome?_cons, List.map_cons]
    cases h : f.lookup? name with
    | some c =>
      have hmem : name ∈ f.layer.names := (f.mem_layer_iff name).mpr (by rw [h]; rfl)
      constructor
      · rintro ⟨⟩
        exact ⟨[], f.layer, _, rfl, List.forall_mem_nil _, by rw [Frame.lookup_layer, h]⟩
      · rintro ⟨_ | ⟨k, inside⟩, l, outside, hsplit, hinside, hl⟩
        · obtain ⟨rfl, -⟩ := List.cons.inj hsplit
          rwa [Frame.lookup_layer, h] at hl
        · obtain ⟨rfl, -⟩ := List.cons.inj hsplit
          exact absurd hmem (hinside _ List.mem_cons_self)
    | none =>
      have hmem : name ∉ f.layer.names := by
        rw [← Finmap.lookup_eq_none, Frame.lookup_layer, h]
      rw [ih]
      constructor
      · rintro ⟨inside, l, outside, hsplit, hinside, hl⟩
        exact ⟨f.layer :: inside, l, outside, by rw [hsplit, List.cons_append],
          List.forall_mem_cons.mpr ⟨hmem, hinside⟩, hl⟩
      · rintro ⟨_ | ⟨k, inside⟩, l, outside, hsplit, hinside, hl⟩
        · obtain ⟨rfl, -⟩ := List.cons.inj hsplit
          exact absurd (Finmap.mem_of_lookup_eq_some hl) hmem
        · obtain ⟨-, hrest⟩ := List.cons.inj hsplit
          exact ⟨inside, l, outside, hrest, (List.forall_mem_cons.mp hinside).2, hl⟩

/-- A declaration fails just if the innermost layer has the name. -/
theorem define?_eq_none_iff_mem (s : Scope) (b : Binding) :
    s.define? b = none ↔ b.name ∈ s.inner.layer.names := by
  rw [Frame.mem_layer_iff, define?, lookupLocal?]
  split <;> simp_all

/-! ## Counting frames -/

/-- How many of some operations take a frame away. -/
def effectivePops : List ScopeOp → Scope → Nat
  | [], _ => 0
  | op :: ops, s => (if op = .pop ∧ s.canPop then 1 else 0) + effectivePops ops (s.apply op)

private theorem length_markIn (name : String) (fs : List Frame) :
    (markIn name fs).length = fs.length :=
  (Frame.allFill_markIn name fs).length_eq.symm

/-- A frame comes with a push and goes with a pop that takes one away. -/
theorem depth_apply (op : ScopeOp) (s : Scope) :
    (s.apply op).depth + (if op = .pop ∧ s.canPop then 1 else 0) =
      s.depth + if op = .push then 1 else 0 := by
  obtain ⟨inner, outer⟩ := s
  cases op with
  | define b =>
    simp only [apply, define?]
    split <;> simp [depth, frames]
  | store name => simp [apply, depth, frames_markInitialized, length_markIn]
  | push => simp [apply, push, depth, frames]
  | pop => cases outer <;> simp [apply, pop, canPop, depth, frames]
  | enterLoop => simp [apply, enterLoop, depth, frames]
  | exitLoop => simp [apply, exitLoop, depth, frames]

/-- The frames at the end and those taken off are as many as those at the start and those put on. -/
theorem depth_run (ops : List ScopeOp) (s : Scope) :
    (s.run ops).depth + effectivePops ops s = s.depth + ops.count .push := by
  induction ops generalizing s with
  | nil => rfl
  | cons op ops ih =>
    have hstep := depth_apply op s
    have hrest := ih (s.apply op)
    rw [run_cons, effectivePops, List.count_cons]
    simp only [beq_iff_eq]
    omega

/-! ## Frames that come and go -/

end Scope

/-- Some operations take away exactly the frames that they put on, and at no time more. -/
structure ScopeOp.Balanced (ops : List ScopeOp) : Prop where
  /-- At no time have more frames been taken away than were put on. -/
  stays : ∀ front, front <+: ops → front.count .pop ≤ front.count .push
  /-- In the end as many have been taken away. -/
  returns : ops.count .pop = ops.count .push

namespace Scope

/-- A scope has some frames, but for values stored since, below its innermost one and `n` more. -/
def StandsOn (n : Nat) (base : List Frame) (s : Scope) : Prop :=
  ∃ above below, s.frames = above ++ below ∧ above.length = n + 1 ∧ Frame.AllFill base below

/-- A frame that is put on stands on those before. -/
theorem standsOn_push (s : Scope) : s.push.StandsOn 0 s.frames :=
  ⟨[s.push.inner], s.frames, rfl, rfl, .refl _⟩

section

variable {n : Nat} {base : List Frame} {s : Scope} (h : s.StandsOn n base)

include h

/-- Changes to the innermost frame do not reach those below. -/
theorem StandsOn.inner (f : Frame) : StandsOn n base ⟨f, s.outer⟩ := by
  obtain ⟨above, below, hframes, hlength, hfill⟩ := h
  obtain ⟨g, above, rfl⟩ := List.exists_cons_of_length_eq_add_one hlength
  obtain ⟨-, houter⟩ := List.cons.inj hframes
  exact ⟨f :: above, below, congrArg (f :: ·) houter, hlength, hfill⟩

/-- Storing values leaves a scope standing where it does. -/
theorem StandsOn.fills {s' : Scope} (hs : s.Fills s') : s'.StandsOn n base := by
  obtain ⟨above, below, hframes, hlength, hfill⟩ := h
  have hall : Frame.AllFill (above ++ below) s'.frames := hframes ▸ hs
  refine ⟨s'.frames.take above.length, s'.frames.drop above.length,
    (List.take_append_drop _ _).symm, ?_, ?_⟩
  · rw [List.length_take, ← hall.length_eq, List.length_append]
    omega
  · have hbelow := List.forall₂_drop above.length hall
    rw [List.drop_left] at hbelow
    exact hfill.trans hbelow

/-- A further frame that is put on makes one more. -/
theorem StandsOn.push : s.push.StandsOn (n + 1) base := by
  obtain ⟨above, below, hframes, hlength, hfill⟩ := h
  exact ⟨s.push.inner :: above, below, congrArg (s.push.inner :: ·) hframes,
    congrArg (· + 1) hlength, hfill⟩

end

/-- A frame that is taken off makes one less. -/
theorem StandsOn.pop {n : Nat} {base : List Frame} {s : Scope} (h : s.StandsOn (n + 1) base) :
    s.pop.StandsOn n base := by
  obtain ⟨above, below, hframes, hlength, hfill⟩ := h
  obtain ⟨inner, outer⟩ := s
  obtain ⟨f, g, above, rfl⟩ : ∃ f g rest, above = f :: g :: rest := by
    obtain ⟨f, above, rfl⟩ := List.exists_cons_of_length_eq_add_one hlength
    obtain ⟨g, above, rfl⟩ := List.exists_cons_of_length_eq_add_one (Nat.succ.inj hlength)
    exact ⟨f, g, above, rfl⟩
  obtain ⟨-, rfl⟩ := List.cons.inj hframes
  exact ⟨g :: above, below, rfl, Nat.succ.inj hlength, hfill⟩

/-- A step moves one frame at most. -/
theorem StandsOn.apply {n m : Nat} {base : List Frame} {s : Scope} {op : ScopeOp}
    (h : s.StandsOn n base)
    (hm : m + (if op = .pop then 1 else 0) = n + if op = .push then 1 else 0) :
    (s.apply op).StandsOn m base := by
  cases op with
  | push =>
    obtain rfl : m = n + 1 := hm
    exact h.push
  | pop =>
    obtain rfl : m + 1 = n := hm
    exact h.pop
  | define b =>
    obtain rfl : m = n := hm
    rw [Scope.apply, define?]
    split
    · exact h
    · exact h.inner _
  | store name =>
    obtain rfl : m = n := hm
    exact h.fills (s.fills_markInitialized name)
  | enterLoop | exitLoop =>
    obtain rfl : m = n := hm
    exact h.inner _

/-- As long as no frame below is taken away, these frames stay. -/
theorem StandsOn.run {n m : Nat} {base : List Frame} {s : Scope} {ops : List ScopeOp}
    (h : s.StandsOn n base)
    (hops : ∀ front, front <+: ops → front.count .pop ≤ n + front.count .push)
    (hm : m + ops.count .pop = n + ops.count .push) : (s.run ops).StandsOn m base := by
  induction ops generalizing n s with
  | nil =>
    obtain rfl : m = n := hm
    exact h
  | cons op ops ih =>
    have hcounts : ∀ (a : ScopeOp) (l : List ScopeOp),
        (op :: l).count a = l.count a + if op = a then 1 else 0 := by
      intro a l
      rw [List.count_cons]
      simp only [beq_iff_eq]
    have hfirst := hops [op] (List.cons_prefix_cons.mpr ⟨rfl, List.nil_prefix⟩)
    rw [hcounts, hcounts, List.count_nil, List.count_nil] at hfirst
    rw [hcounts, hcounts] at hm
    obtain ⟨k, hk⟩ := Nat.exists_eq_add_of_le hfirst
    refine ih (h.apply (m := k) (by omega)) (fun front hfront => ?_) (by omega)
    have hfront := hops (op :: front) (List.cons_prefix_cons.mpr ⟨rfl, hfront⟩)
    rw [hcounts, hcounts] at hfront
    omega

/-- Frames that are put on and taken away again leave those under them. -/
theorem fills_of_balanced {ops : List ScopeOp} (h : ScopeOp.Balanced ops) (s : Scope) :
    s.Fills (s.run (.push :: ops ++ [.pop])) := by
  have hstands : (s.push.run ops).StandsOn 0 s.frames :=
    s.standsOn_push.run (fun front hfront => by simpa using h.stays front hfront)
      (congrArg (0 + ·) h.returns)
  have hrun : s.run (.push :: ops ++ [.pop]) = (s.push.run ops).pop := by
    rw [run_append]
    rfl
  obtain ⟨above, below, hframes, hlength, hfill⟩ := hstands
  obtain ⟨f, rfl⟩ := List.length_eq_one_iff.mp hlength
  have houter : (s.push.run ops).outer = below := (List.cons.inj hframes).2
  rw [hrun]
  exact fills_pop (houter ▸ hfill)

end Scope

/-! ## All sequences of operations -/

/-- A scope to start with, and what can be observed of it. -/
inductive Scope.Starts : Scope → Layer → Prop
  /-- There are no names. -/
  | empty : Starts .empty ⟨∅, 0⟩
  /-- Input and output can be reached. -/
  | global : Starts .global ⟨.singleton ioName ⟨ioName, .facility, .object ioClass, true⟩, 0⟩

/-- A scope that starts with a layer has no other. -/
theorem Scope.Starts.layers {s : Scope} {l : Layer} (h : s.Starts l) : s.layers = [l] := by
  cases h with
  | empty => rfl
  | global => rfl

/-- It has one frame. -/
theorem Scope.Starts.depth {s : Scope} {l : Layer} (h : s.Starts l) : s.depth = 1 := by
  cases h <;> rfl

/-- Whatever operations are done to a scope, it is the stack of finite maps that the same
operations lead to. A name is looked up in the innermost map that has it, and cannot be declared
exactly if the innermost map of all has it; then nothing changes. There is one frame more than
frames put on and not taken away. Operations that take away the frame they put on, and none below
it, restore all frames but for values stored meanwhile. -/
theorem Scope.refines_map_stack {start : Scope} {l : Layer} (h : start.Starts l)
    (ops : List ScopeOp) :
    let s := start.run ops
    s.layers = Layer.run ops [l] ∧
      (∀ name b, s.lookup? name = some b ↔ Layer.Binds s.layers name b) ∧
      (∀ b, (s.define? b = none ↔ ∃ l ls, s.layers = l :: ls ∧ b.name ∈ l.names) ∧
        (s.define? b = none → s.apply (.define b) = s)) ∧
      s.depth + effectivePops ops start = 1 + ops.count .push ∧ 1 ≤ s.depth ∧
      ∀ segment, ScopeOp.Balanced segment → s.Fills (s.run (.push :: segment ++ [.pop])) := by
  intro s
  have hdepth := depth_run ops start
  rw [h.depth] at hdepth
  refine ⟨?_, s.lookup?_eq_some_iff, ?_, hdepth, ?_, fun _ hsegment => fills_of_balanced hsegment s⟩
  · rw [layers_run, h.layers]
  · intro b
    refine ⟨?_, ?_⟩
    · rw [define?_eq_none_iff_mem]
      constructor
      · exact fun hmem => ⟨_, _, rfl, hmem⟩
      · rintro ⟨l, ls, hlayers, hmem⟩
        obtain ⟨rfl, -⟩ := List.cons.inj hlayers
        exact hmem
    · intro hnone
      rw [Scope.apply, hnone, Option.getD_none]
  · exact Nat.succ_le_of_lt (List.length_pos_of_ne_nil (List.cons_ne_nil _ _))

/-- A variable, and whether a value has been stored in it. -/
def tide (initialized : Bool) : Binding := ⟨"tide", .variable, .int, initialized⟩

/-- In a frame of their own: a value for the variable, a constant of the same name, and a loop that
is left in one more frame. -/
def shadowing : List ScopeOp :=
  [.store "tide", .define ⟨"tide", .constant, .float, false⟩, .push, .exitLoop, .pop]

theorem balanced_shadowing : ScopeOp.Balanced shadowing := by
  refine ⟨fun front hfront => ?_, by decide⟩
  have hall : ∀ front ∈ shadowing.inits, front.count .pop ≤ front.count .push := by decide
  exact hall front ((List.mem_inits front shadowing).mpr hfront)

/-- The variable is there again afterwards, in a loop as before, and has its value. -/
theorem tide_restored :
    let ops := [.pop, .define (tide false), .enterLoop]
    let s := Scope.global.run ops
    let s' := s.run (.push :: shadowing ++ [.pop])
    Scope.effectivePops ops .global = 0 ∧ s.depth = 1 ∧ s.Fills s' ∧
      s.lookup? "tide" = some (tide false) ∧ Layer.Binds s'.layers "tide" (tide true) ∧
      s'.inLoop = true := by
  intro ops s s'
  have hpops : Scope.effectivePops ops .global = 0 := by decide
  obtain ⟨-, -, -, hdepth, -, hsegments⟩ := Scope.refines_map_stack .global ops
  obtain ⟨-, hlookup, -⟩ :=
    Scope.refines_map_stack .global (ops ++ (.push :: shadowing ++ [.pop]))
  rw [Scope.run_append] at hlookup
  rw [hpops] at hdepth
  exact ⟨hpops, hdepth, hsegments shadowing balanced_shadowing, by decide,
    (hlookup "tide" (tide true)).mp (by decide), by decide⟩

end ClassCheck
