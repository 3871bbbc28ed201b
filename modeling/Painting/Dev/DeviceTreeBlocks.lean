import Painting.Core.Strings
import Painting.Dev.DeviceTree

/-!
# Structure blocks

The format of a structure block as it lies in memory: a root node with its properties and subnodes,
and `FDT_NOP` between any two tokens.  The parser takes a block if and only if no `FDT_NOP` follows
the root node and no node makes it read a null pointer.

What the parser returns is stated for all large amounts of fuel.
-/

namespace Painting.Dtb

open Filter
open Painting.Memory (Mem)
open Painting.Strings (Holds ofList)

/-! ## The format -/

section Format

variable (mem : Mem)

/-- From `a` to `b` there is nothing but `FDT_NOP`. -/
inductive NopsAt : ℕ → ℕ → Prop
  | nil (a : ℕ) : NopsAt a a
  | cons {a b : ℕ} : readBigEndian32 mem a = fdtNop → NopsAt (a + 4) b → NopsAt a b

/-- Where the value of a property is, and its length. -/
structure Property where
  value : ℕ
  len : ℕ

/-- Properties from `a` to `b`. -/
inductive PropsAt : ℕ → ℕ → List Property → Prop
  | nil (a : ℕ) : PropsAt a a []
  | nop {a b : ℕ} {props : List Property} :
      readBigEndian32 mem a = fdtNop → PropsAt (a + 4) b props → PropsAt a b props
  | prop {a b len : ℕ} {props : List Property} :
      readBigEndian32 mem a = fdtProp → readBigEndian32 mem (a + 4) = len →
      PropsAt (fourRoundUp (a + 12 + len)) b props → PropsAt a b (⟨a + 12, len⟩ :: props)

/-- The start of a node up to the end `b` of its properties. -/
structure HeadAt (a b : ℕ) (props : List Property) : Prop where
  begin_ : readBigEndian32 mem a = fdtBeginNode
  rest : ∃ name, Holds (fun i => mem (a + 4 + i)) name ∧
    PropsAt mem (fourRoundUp (a + 4 + name.length + 1)) b props

/-- A node: where its `FDT_BEGIN_NODE` is, the address just after its `FDT_END_NODE`, and its
properties. -/
structure Node where
  start : ℕ
  stop : ℕ
  props : List Property

/-- The subnodes from `a` on, up to the `FDT_END_NODE` that ends before `b`, with all the nodes in
them. -/
inductive BodyAt : ℕ → ℕ → List Node → Prop
  | close {a : ℕ} : readBigEndian32 mem a = fdtEndNode → BodyAt a (a + 4) []
  | nop {a b : ℕ} {nodes : List Node} :
      readBigEndian32 mem a = fdtNop → BodyAt (a + 4) b nodes → BodyAt a b nodes
  | child {a p c b : ℕ} {props : List Property} {inner rest : List Node} :
      HeadAt mem a p props → BodyAt p c inner → BodyAt c b rest →
      BodyAt a b (⟨a, c, props⟩ :: (inner ++ rest))

/-- A node with the nodes in it. -/
def NodeAt (node : Node) (inner : List Node) : Prop :=
  ∃ p, HeadAt mem node.start p node.props ∧ BodyAt mem p node.stop inner

/-- A block from `start` to its `FDT_END` at `finish`. -/
structure BlockAt (start finish : ℕ) (root : Node) (subnodes : List Node) : Prop where
  before : NopsAt mem start root.start
  node : NodeAt mem root subnodes
  after : NopsAt mem root.stop finish
  last : readBigEndian32 mem finish = fdtEnd

/-- The last value that the parser takes for a text. -/
def lastText : List Property → Option ℕ
  | [] => none
  | prop :: props => (lastText props).or (if IsNumber prop.len then none else some prop.value)

/-- The last value that it takes for numbers. -/
def lastNumber : List Property → Option ℕ
  | [] => none
  | prop :: props => (lastNumber props).or (if IsNumber prop.len then some prop.value else none)

/-- If the last text is taken for `memory`, the node has a value of 4, 8, 16 or 32 bytes. -/
def Readable (node : Node) : Prop :=
  ∀ text, lastText node.props = some text → IsMemory mem text →
    ∃ prop ∈ node.props, IsNumber prop.len

end Format

/-! ## Results for all large amounts of fuel -/

/-- `run` ends at `b` if `good` holds, and reads a null pointer if not. -/
def Walks (good : Prop) (b : ℕ) (run : ℕ → Parsed) : Prop :=
  (good → ∃ memInfo, ∀ᶠ fuel in atTop, run fuel = .done b memInfo) ∧
    (¬ good → ∀ᶠ fuel in atTop, run fuel = .nullRead)

section Fuel

variable {good good' : Prop} {b b' : ℕ} {run run' : ℕ → Parsed}

theorem eventually_of_succ {P : ℕ → Prop} (hsucc : ∀ᶠ fuel in atTop, P (fuel + 1)) :
    ∀ᶠ fuel in atTop, P fuel := by
  obtain ⟨n, hn⟩ := eventually_atTop.mp hsucc
  refine eventually_atTop.mpr ⟨n + 1, fun fuel hfuel => ?_⟩
  obtain ⟨fuel, rfl⟩ : ∃ m, fuel = m + 1 := ⟨fuel - 1, by omega⟩
  exact hn fuel (by omega)

theorem Walks.congr (hwalks : Walks good b run') (hsame : ∀ᶠ fuel in atTop, run fuel = run' fuel) :
    Walks good b run := by
  constructor
  · intro hgood
    obtain ⟨memInfo, hdone⟩ := hwalks.1 hgood
    refine ⟨memInfo, ?_⟩
    filter_upwards [hsame, hdone] with fuel hsame hdone
    rw [hsame, hdone]
  · intro hbad
    filter_upwards [hsame, hwalks.2 hbad] with fuel hsame hnull
    rw [hsame, hnull]

theorem Walks.succ (hwalks : Walks good b run')
    (hsame : ∀ᶠ fuel in atTop, run (fuel + 1) = run' fuel) : Walks good b run := by
  obtain ⟨hdone, hnull⟩ : Walks good b fun fuel => run (fuel + 1) := hwalks.congr hsame
  refine ⟨fun hgood => ?_, fun hbad => eventually_of_succ (hnull hbad)⟩
  obtain ⟨memInfo, hdone⟩ := hdone hgood
  exact ⟨memInfo, eventually_of_succ hdone⟩

theorem Walks.andThen (hwalks : Walks good b run) {next : ℕ → ℕ → MemInfo → Parsed}
    (hnext : ∀ memInfo, Walks good' b' fun fuel => next fuel b memInfo) :
    Walks (good ∧ good') b' fun fuel => (run fuel).andThen (next fuel) := by
  constructor
  · rintro ⟨hgood, hgood'⟩
    obtain ⟨memInfo, hdone⟩ := hwalks.1 hgood
    obtain ⟨memInfo', hdone'⟩ := (hnext memInfo).1 hgood'
    refine ⟨memInfo', ?_⟩
    filter_upwards [hdone, hdone'] with fuel hdone hdone'
    rw [hdone]
    exact hdone'
  · intro hbad
    by_cases hgood : good
    · obtain ⟨memInfo, hdone⟩ := hwalks.1 hgood
      filter_upwards [hdone, (hnext memInfo).2 fun hgood' => hbad ⟨hgood, hgood'⟩]
        with fuel hdone hnull
      rw [hdone]
      exact hnull
    · filter_upwards [hwalks.2 hgood] with fuel hnull
      rw [hnull]
      rfl

theorem Walks.iff (hwalks : Walks good b run) (hiff : good ↔ good') : Walks good' b run :=
  ⟨fun hgood => hwalks.1 (hiff.mpr hgood), fun hbad => hwalks.2 (mt hiff.mp hbad)⟩

theorem walks_done {memInfo : MemInfo} (hrun : ∀ᶠ fuel in atTop, run fuel = .done b memInfo) :
    Walks True b run :=
  ⟨fun _ => ⟨memInfo, hrun⟩, fun hbad => absurd trivial hbad⟩

end Fuel

/-! ## Tokens, names and properties -/

section Tokens

variable {mem : Mem} {a b : ℕ}

theorem skipNops_of_nopsAt (hnops : NopsAt mem a b) (htoken : readBigEndian32 mem b ≠ fdtNop) :
    ∀ᶠ fuel in atTop, skipNops mem fuel a = some b := by
  induction hnops with
  | nil a =>
      apply eventually_of_succ
      exact .of_forall fun fuel => by rw [skipNops, if_neg htoken]
  | cons hnop _ ih =>
      apply eventually_of_succ
      filter_upwards [ih htoken] with fuel hfuel
      rw [skipNops, if_pos hnop, hfuel]

theorem NopsAt.eq_of_token (hnops : NopsAt mem a b) (htoken : readBigEndian32 mem a ≠ fdtNop) :
    b = a := by
  cases hnops with
  | nil => rfl
  | cons hnop => exact absurd hnop htoken

theorem stringEnd_of_holds {s : ℕ} {name : List UInt8}
    (hname : Holds (fun i => mem (s + i)) name) :
    ∀ᶠ fuel in atTop, stringEnd mem fuel s = some (s + name.length) := by
  suffices hleft : ∀ left i, i + left = name.length →
      ∀ᶠ fuel in atTop, stringEnd mem fuel (s + i) = some (s + name.length) from
    hleft name.length 0 (Nat.zero_add _)
  intro left
  induction left with
  | zero =>
      rintro i rfl
      apply eventually_of_succ
      refine .of_forall fun fuel => ?_
      rw [stringEnd, if_neg (not_not.mpr hname.terminator)]
  | succ left ih =>
      intro i hi
      apply eventually_of_succ
      filter_upwards [ih (i + 1) (by omega)] with fuel hfuel
      rw [stringEnd, if_pos (hname.ne_zero (by omega)), Nat.add_assoc, hfuel]

/-- The first token of a body is no property. -/
theorem BodyAt.token {nodes : List Node} (hbody : BodyAt mem a b nodes) :
    ∃ p, NopsAt mem a p ∧ readBigEndian32 mem p ≠ fdtNop ∧ readBigEndian32 mem p ≠ fdtProp := by
  induction hbody with
  | close hclose => exact ⟨_, .nil _, by rw [hclose]; decide, by rw [hclose]; decide⟩
  | nop hnop _ ih =>
      obtain ⟨p, hnops, htoken⟩ := ih
      exact ⟨p, .cons hnop hnops, htoken⟩
  | child hhead =>
      have hbegin := hhead.begin_
      exact ⟨_, .nil _, by rw [hbegin]; decide, by rw [hbegin]; decide⟩

theorem propLoop_succ {start len fuel : ℕ} {nodeStr value : Option ℕ}
    (htoken : readBigEndian32 mem start = fdtProp) (hlen : readBigEndian32 mem (start + 4) = len) :
    propLoop mem (fuel + 1) start nodeStr value =
      (skipNops mem fuel (fourRoundUp (start + 12 + len))).bind fun node =>
        propLoop mem fuel node (if IsNumber len then nodeStr else some (start + 12))
          (if IsNumber len then some (start + 12) else value) := by
  subst hlen
  rw [propLoop, if_pos htoken]
  by_cases hnumber : IsNumber (readBigEndian32 mem (start + 4))
  · simp only [if_pos hnumber]
  · simp only [if_neg hnumber]

/-- What the two loops do with a run of properties that ends at `a` and is followed by the token
at `b`. -/
theorem propLoop_of_propsAt {start : ℕ} {props : List Property} (hprops : PropsAt mem start a props)
    (hnops : NopsAt mem a b) (hnop : readBigEndian32 mem b ≠ fdtNop)
    (hprop : readBigEndian32 mem b ≠ fdtProp) :
    ∃ first, (∀ᶠ fuel in atTop, skipNops mem fuel start = some first) ∧
      (props = [] → first = b) ∧ (props ≠ [] → readBigEndian32 mem first = fdtProp) ∧
      ∀ nodeStr value, ∀ᶠ fuel in atTop, propLoop mem fuel first nodeStr value =
        some (b, (lastText props).or nodeStr, (lastNumber props).or value) := by
  induction hprops with
  | nil a =>
      refine ⟨b, skipNops_of_nopsAt hnops hnop, fun _ => rfl, fun hne => absurd rfl hne,
        fun nodeStr value => ?_⟩
      apply eventually_of_succ
      refine .of_forall fun fuel => ?_
      rw [propLoop, if_neg hprop]
      rfl
  | nop hskip _ ih =>
      obtain ⟨first, hfirst, hrest⟩ := ih hnops
      refine ⟨first, ?_, hrest⟩
      apply eventually_of_succ
      filter_upwards [hfirst] with fuel hfuel
      rw [skipNops, if_pos hskip, hfuel]
  | @prop start _ len props htoken hlen _ ih =>
      obtain ⟨first, hfirst, -, -, hloop⟩ := ih hnops
      refine ⟨start, skipNops_of_nopsAt (.nil start) (by rw [htoken]; decide),
        fun hnil => absurd hnil (List.cons_ne_nil _ _), fun _ => htoken, fun nodeStr value => ?_⟩
      apply eventually_of_succ
      filter_upwards [hfirst, hloop (if IsNumber len then nodeStr else some (start + 12))
        (if IsNumber len then some (start + 12) else value)] with fuel hskip hfuel
      rw [propLoop_succ htoken hlen, hskip, Option.bind_some, hfuel, lastText, lastNumber]
      by_cases hnumber : IsNumber len
      · simp only [if_pos hnumber, Option.or_none, Option.or_assoc, Option.some_or]
      · simp only [if_neg hnumber, Option.or_none, Option.or_assoc, Option.some_or]

theorem lastNumber_eq_none {props : List Property} :
    lastNumber props = none ↔ ¬ ∃ prop ∈ props, IsNumber prop.len := by
  induction props with
  | nil => simp [lastNumber]
  | cons prop props ih =>
      rw [lastNumber, Option.or_eq_none_iff, ih, List.exists_mem_cons_iff, not_or, and_comm]
      simp

theorem walks_readMemory (node : Node) (memInfo : MemInfo) :
    Walks (Readable mem node) b fun _ =>
      readMemory mem (lastText node.props) (lastNumber node.props) b memInfo := by
  have hdone : ∀ memInfo, Walks True b fun _ => .done b memInfo :=
    fun memInfo => walks_done (.of_forall fun _ => rfl)
  cases htext : lastText node.props with
  | none =>
      refine (hdone memInfo).iff (iff_of_true trivial fun text heq => ?_)
      cases htext.symm.trans heq
  | some text =>
      by_cases hmemory : IsMemory mem text
      · simp only [readMemory, if_pos hmemory]
        have hreadable : Readable mem node ↔ ∃ prop ∈ node.props, IsNumber prop.len := by
          constructor
          · exact fun hread => hread text htext hmemory
          · exact fun hnumber _ _ _ => hnumber
        cases hvalue : lastNumber node.props with
        | none =>
            have hbad := lastNumber_eq_none.mp hvalue
            exact ⟨fun hread => absurd (hreadable.mp hread) hbad, fun _ => .of_forall fun _ => rfl⟩
        | some value =>
            refine (hdone _).iff (iff_of_true trivial (hreadable.mpr ?_))
            by_contra hnone
            cases hvalue.symm.trans (lastNumber_eq_none.mpr hnone)
      · simp only [readMemory, if_neg hmemory]
        refine (hdone memInfo).iff (iff_of_true trivial fun text' heq hmem => ?_)
        cases htext.symm.trans heq
        exact absurd hmem hmemory

theorem scanProps_token (hnop : readBigEndian32 mem b ≠ fdtNop)
    (hprop : readBigEndian32 mem b ≠ fdtProp) (memInfo : MemInfo) :
    Walks True b fun fuel => scanProps mem fuel b memInfo := by
  refine @walks_done b _ memInfo ?_
  apply eventually_of_succ
  filter_upwards [skipNops_of_nopsAt (.nil b) hnop] with fuel hskip
  simp only [scanProps, hskip, Option.elim_some, if_neg hprop]

/-- The loop over the properties of a node. -/
theorem walks_scanProps {start : ℕ} {node : Node} (hprops : PropsAt mem start a node.props)
    (hnops : NopsAt mem a b) (hnop : readBigEndian32 mem b ≠ fdtNop)
    (hprop : readBigEndian32 mem b ≠ fdtProp) (memInfo : MemInfo) :
    Walks (Readable mem node) b fun fuel => scanProps mem fuel start memInfo := by
  obtain ⟨first, hfirst, hnil, hcons, hloop⟩ := propLoop_of_propsAt hprops hnops hnop hprop
  by_cases hempty : node.props = []
  · obtain rfl := hnil hempty
    have hrun : Walks True first fun fuel => scanProps mem fuel start memInfo := by
      refine @walks_done first _ memInfo ?_
      apply eventually_of_succ
      filter_upwards [hfirst] with fuel hskip
      simp only [scanProps, hskip, Option.elim_some, if_neg hprop]
    refine hrun.iff (iff_of_true trivial fun text htext => ?_)
    rw [hempty] at htext
    cases htext
  · have hrun := (@walks_readMemory mem b node memInfo).andThen (scanProps_token hnop hprop)
    refine (hrun.iff (and_iff_left trivial)).succ ?_
    filter_upwards [hfirst, hloop none none] with fuel hskip hfuel
    simp only [scanProps, hskip, Option.elim_some, if_pos (hcons hempty), hfuel, Option.or_none]

end Tokens

/-! ## Nodes -/

section Nodes

variable {mem : Mem} {a b p : ℕ} {nodes : List Node}

/-- A call on a node, given what the loop over its subnodes does from their first token on. -/
theorem walks_parseFdtNode {start : ℕ} {node : Node} {good : Prop}
    (hnops : NopsAt mem start node.start) (hhead : HeadAt mem node.start a node.props)
    (hbody : BodyAt mem a b nodes)
    (hchildren : ∀ first, NopsAt mem a first → readBigEndian32 mem first ≠ fdtNop →
      ∀ memInfo, Walks good b fun fuel => childLoop mem fuel first memInfo) (memInfo : MemInfo) :
    Walks (Readable mem node ∧ good) b fun fuel => parseFdtNode mem fuel start memInfo := by
  obtain ⟨first, hfirst, hnop, hprop⟩ := hbody.token
  obtain ⟨name, hname, hprops⟩ := hhead.rest
  have hrun := (walks_scanProps hprops hfirst hnop hprop memInfo).andThen
    (hchildren first hfirst hnop)
  apply hrun.succ
  have hbegin : readBigEndian32 mem node.start ≠ fdtNop := by
    rw [hhead.begin_]
    decide
  filter_upwards [skipNops_of_nopsAt hnops hbegin, stringEnd_of_holds hname] with fuel hskip hend
  simp only [parseFdtNode, hskip, Option.elim_some, hhead.begin_, ne_eq, not_true_eq_false,
    if_false, hend]

/-- The loop over the subnodes, by induction on the body. -/
theorem walks_childLoop (hbody : BodyAt mem a b nodes) :
    ∀ first, NopsAt mem a first → readBigEndian32 mem first ≠ fdtNop → ∀ memInfo,
      Walks (∀ node ∈ nodes, Readable mem node) b fun fuel => childLoop mem fuel first memInfo := by
  induction hbody with
  | @close a hclose =>
      intro first hnops _ memInfo
      obtain rfl := hnops.eq_of_token (by rw [hclose]; decide)
      refine Walks.iff (@walks_done _ _ memInfo (eventually_of_succ ?_))
        (iff_of_true trivial (List.forall_mem_nil _))
      refine .of_forall fun fuel => ?_
      rw [childLoop, if_neg (not_not.mpr hclose)]
  | nop hnop _ ih =>
      intro first hnops htoken memInfo
      cases hnops with
      | nil => exact absurd hnop htoken
      | cons _ hrest => exact ih first hrest htoken memInfo
  | @child a p c b props inner rest hhead hinner hrest ihInner ihRest =>
      intro first hnops htoken memInfo
      obtain rfl := hnops.eq_of_token (by rw [hhead.begin_]; decide)
      obtain ⟨next, hnext, hnextToken, -⟩ := hrest.token
      have hnode := @walks_parseFdtNode mem p c inner first ⟨first, c, props⟩ _ (.nil first) hhead
        hinner ihInner memInfo
      have hnext' : ∀ memInfo, Walks (∀ node ∈ rest, Readable mem node) b fun fuel =>
          (skipNops mem fuel c).elim .outOfFuel fun node => childLoop mem fuel node memInfo := by
        intro memInfo
        apply (ihRest next hnext hnextToken memInfo).congr
        filter_upwards [skipNops_of_nopsAt hnext hnextToken] with fuel hskip
        rw [hskip, Option.elim_some]
      have hrun := @Walks.andThen _ _ _ _ _ hnode (fun fuel node memInfo =>
        (skipNops mem fuel node).elim .outOfFuel fun node => childLoop mem fuel node memInfo) hnext'
      have hiff : ((Readable mem ⟨first, c, props⟩ ∧ ∀ node ∈ inner, Readable mem node) ∧
          ∀ node ∈ rest, Readable mem node) ↔
          ∀ node ∈ (⟨first, c, props⟩ : Node) :: (inner ++ rest), Readable mem node := by
        rw [List.forall_mem_cons, List.forall_mem_append, and_assoc]
      have hgo : readBigEndian32 mem first ≠ fdtEndNode := by
        rw [hhead.begin_]
        decide
      refine (hrun.iff hiff).succ (.of_forall fun fuel => ?_)
      rw [childLoop, if_pos hgo]

/-- A node of a body is a node, with nodes of the body in it. -/
theorem BodyAt.nodeAt (hbody : BodyAt mem a b nodes) {node : Node} (hmem : node ∈ nodes) :
    ∃ inner, NodeAt mem node inner ∧ ∀ node' ∈ inner, node' ∈ nodes := by
  induction hbody with
  | close => cases hmem
  | nop _ _ ih => exact ih hmem
  | @child a p c b props inner rest hhead hinner _ ihInner ihRest =>
      have hkeep : ∀ node' ∈ inner, node' ∈ (⟨a, c, props⟩ : Node) :: (inner ++ rest) :=
        fun node' hnode' => List.mem_cons_of_mem _ (List.mem_append_left _ hnode')
      obtain rfl | hmem := List.mem_cons.mp hmem
      · exact ⟨inner, ⟨p, hhead, hinner⟩, hkeep⟩
      · obtain hmem | hmem := List.mem_append.mp hmem
        · obtain ⟨inner', hnode, hsub⟩ := ihInner hmem
          exact ⟨inner', hnode, fun node' hnode' => hkeep node' (hsub node' hnode')⟩
        · obtain ⟨inner', hnode, hsub⟩ := ihRest hmem
          exact ⟨inner', hnode, fun node' hnode' =>
            List.mem_cons_of_mem _ (List.mem_append_right _ (hsub node' hnode'))⟩

/-- What a call on a node does. -/
theorem NodeAt.walks {start : ℕ} {node : Node} (hnode : NodeAt mem node nodes)
    (hnops : NopsAt mem start node.start) (memInfo : MemInfo) :
    Walks (∀ node' ∈ node :: nodes, Readable mem node') node.stop fun fuel =>
      parseFdtNode mem fuel start memInfo := by
  obtain ⟨p, hhead, hbody⟩ := hnode
  have hrun := walks_parseFdtNode hnops hhead hbody (walks_childLoop hbody) memInfo
  exact hrun.iff (List.forall_mem_cons).symm

/-- On `FDT_END` a call fails its assertion. -/
theorem parseFdtNode_assertFailed {start : ℕ} (hnops : NopsAt mem start b)
    (hend : readBigEndian32 mem b = fdtEnd) (memInfo : MemInfo) :
    ∀ᶠ fuel in atTop, parseFdtNode mem fuel start memInfo = .assertFailed := by
  apply eventually_of_succ
  have htoken : readBigEndian32 mem b ≠ fdtNop := by
    rw [hend]
    decide
  filter_upwards [skipNops_of_nopsAt hnops htoken] with fuel hskip
  rw [parseFdtNode, hskip, Option.elim_some, if_pos]
  rw [hend]
  decide

end Nodes

/-! ## Blocks -/

section Blocks

variable {mem : Mem} {start finish : ℕ} {root : Node} {subnodes : List Node}

theorem not_done_of_eventually {run : ℕ → Parsed} {result : Parsed}
    (hrun : ∀ᶠ fuel in atTop, run fuel = result)
    (hresult : ∀ node memInfo, result ≠ .done node memInfo) {node : ℕ} {memInfo : MemInfo} :
    ¬ ∀ᶠ fuel in atTop, run fuel = .done node memInfo := by
  intro hdone
  obtain ⟨fuel, heq, heq'⟩ := (hrun.and hdone).exists
  exact hresult node memInfo (heq.symm.trans heq')

/-- The loop of `parseDtb` goes through a block without `FDT_NOP` after its root. -/
theorem walks_dtbLoop (hblock : BlockAt mem start finish root subnodes) (hstop : root.stop = finish)
    (memInfo : MemInfo) :
    Walks (∀ node ∈ root :: subnodes, Readable mem node) finish fun fuel =>
      dtbLoop mem fuel start memInfo := by
  have hlast : ∀ memInfo, Walks True finish fun fuel =>
      if readBigEndian32 mem root.stop ≠ fdtEnd then dtbLoop mem fuel root.stop memInfo
      else .done root.stop memInfo := by
    intro memInfo
    refine @walks_done _ _ memInfo (.of_forall fun fuel => ?_)
    rw [hstop, if_neg (not_not.mpr hblock.last)]
  have hrun := @Walks.andThen _ _ _ _ _ (hblock.node.walks hblock.before memInfo)
    (fun fuel node memInfo => if readBigEndian32 mem node ≠ fdtEnd then dtbLoop mem fuel node memInfo
      else .done node memInfo) hlast
  exact (hrun.iff (and_iff_left trivial)).succ (.of_forall fun fuel => rfl)

/-- With an `FDT_NOP` after the root, the call that follows the root fails its assertion. -/
theorem dtbLoop_assertFailed (hblock : BlockAt mem start finish root subnodes)
    (hstop : root.stop ≠ finish) (hreadable : ∀ node ∈ root :: subnodes, Readable mem node)
    (memInfo : MemInfo) :
    ∀ᶠ fuel in atTop, dtbLoop mem fuel start memInfo = .assertFailed := by
  have hgo : readBigEndian32 mem root.stop ≠ fdtEnd := by
    cases hblock.after with
    | nil => exact absurd rfl hstop
    | cons hnop =>
        rw [hnop]
        decide
  obtain ⟨memInfo', hroot⟩ := (hblock.node.walks hblock.before memInfo).1 hreadable
  have hcall := parseFdtNode_assertFailed hblock.after hblock.last memInfo'
  have hnext : ∀ᶠ fuel in atTop, dtbLoop mem fuel root.stop memInfo' = .assertFailed := by
    apply eventually_of_succ
    filter_upwards [hcall] with fuel hfuel
    rw [dtbLoop, hfuel]
    rfl
  apply eventually_of_succ
  filter_upwards [hroot, hnext] with fuel hdone hfuel
  rw [dtbLoop, hdone, Parsed.andThen, if_pos hgo, hfuel]

theorem dtbLoop_nullRead (hblock : BlockAt mem start finish root subnodes)
    (hbad : ¬ ∀ node ∈ root :: subnodes, Readable mem node) (memInfo : MemInfo) :
    ∀ᶠ fuel in atTop, dtbLoop mem fuel start memInfo = .nullRead := by
  apply eventually_of_succ
  filter_upwards [(hblock.node.walks hblock.before memInfo).2 hbad] with fuel hnull
  rw [dtbLoop, hnull]
  rfl

/-- The memory after `parserFdtHeader`. -/
def headerRead (mem : Mem) (dtbEntry : ℕ) : Mem := endianBigToLittle mem dtbEntry headerWords

/-- The memory at `dtbEntry` has a block with this root and these subnodes. -/
def HasBlock (mem : Mem) (dtbEntry finish : ℕ) (root : Node) (subnodes : List Node) : Prop :=
  BlockAt (headerRead mem dtbEntry) (dtbEntry + offDtStruct (headerRead mem dtbEntry) dtbEntry)
    finish root subnodes

/-- `parseDtb` terminates, and each call on a node returns the end of that node. -/
structure Parses (mem : Mem) (dtbEntry : ℕ) (nodes : List Node) : Prop where
  terminates : ∃ finish memInfo, ∀ᶠ fuel in atTop, parseDtb mem dtbEntry fuel = .done finish memInfo
  returns : ∀ node ∈ nodes, ∀ start memInfo, NopsAt (headerRead mem dtbEntry) start node.start →
    ∃ memInfo', ∀ᶠ fuel in atTop,
      parseFdtNode (headerRead mem dtbEntry) fuel start memInfo = .done node.stop memInfo'

/-- `parseDtb` takes a block if and only if no `FDT_NOP` follows the root and each node is
readable. -/
theorem parses_iff (mem : Mem) (dtbEntry finish : ℕ) (root : Node) (subnodes : List Node)
    (hblock : HasBlock mem dtbEntry finish root subnodes) :
    Parses mem dtbEntry (root :: subnodes) ↔
      root.stop = finish ∧
        ∀ node ∈ root :: subnodes, Readable (headerRead mem dtbEntry) node := by
  constructor
  · rintro ⟨⟨last, memInfo, hdone⟩, -⟩
    have hreadable : ∀ node ∈ root :: subnodes, Readable (headerRead mem dtbEntry) node := by
      by_contra hbad
      exact not_done_of_eventually (dtbLoop_nullRead hblock hbad ⟨0, 0⟩)
        (fun _ _ heq => by cases heq) hdone
    refine ⟨?_, hreadable⟩
    by_contra hstop
    exact not_done_of_eventually (dtbLoop_assertFailed hblock hstop hreadable ⟨0, 0⟩)
      (fun _ _ heq => by cases heq) hdone
  · rintro ⟨hstop, hreadable⟩
    refine ⟨⟨finish, (walks_dtbLoop hblock hstop ⟨0, 0⟩).1 hreadable⟩, ?_⟩
    intro node hmem start memInfo hnops
    obtain ⟨inner, hnode, hinner⟩ : ∃ inner, NodeAt (headerRead mem dtbEntry) node inner ∧
        ∀ node' ∈ inner, node' ∈ root :: subnodes := by
      obtain rfl | hmem := List.mem_cons.mp hmem
      · exact ⟨subnodes, hblock.node, fun _ hnode' => List.mem_cons_of_mem _ hnode'⟩
      · obtain ⟨p, -, hbody⟩ := hblock.node
        obtain ⟨inner, hnode, hsub⟩ := hbody.nodeAt hmem
        exact ⟨inner, hnode, fun _ hnode' => List.mem_cons_of_mem _ (hsub _ hnode')⟩
    refine (hnode.walks hnops memInfo).1 (List.forall_mem_cons.mpr ⟨hreadable node hmem, ?_⟩)
    exact fun node' hnode' => hreadable node' (hinner node' hnode')

end Blocks

/-! ## Two blocks -/

/-- A header and the words of a structure block after it. -/
def blob (block : List ℕ) : Mem :=
  ofList (([0xd00dfeed, 40 + 4 * block.length, 40, 0, 0, 17, 16, 0, 0, 4 * block.length] ++
    block).flatMap fun word =>
      [UInt8.ofNat (word / 2 ^ 24), UInt8.ofNat (word / 2 ^ 16), UInt8.ofNat (word / 2 ^ 8),
        UInt8.ofNat word])

/-- A root with a property and a subnode `a`. -/
def nested : Mem := blob [4, 1, 0, 3, 4, 0, 7, 4, 1, 0x61000000, 2, 4, 2, 9]

theorem hasBlock_nested : HasBlock nested 0 92 ⟨44, 92, [⟨64, 4⟩]⟩ [⟨72, 84, []⟩] := by
  have hstart : 0 + offDtStruct (headerRead nested 0) 0 = 40 := by decide +kernel
  rw [HasBlock, hstart]
  have hroot : HeadAt (headerRead nested 0) 44 72 [⟨64, 4⟩] := by
    refine ⟨by decide +kernel, [], ⟨List.not_mem_nil, by decide +kernel⟩, ?_⟩
    refine .prop (by decide +kernel) (by decide +kernel) (.nop (by decide +kernel) (.nil _))
  have hchild : HeadAt (headerRead nested 0) 72 80 [] :=
    ⟨by decide +kernel, [97], ⟨by decide, by decide +kernel⟩, .nil _⟩
  constructor
  · exact .cons (by decide +kernel) (.nil _)
  · refine ⟨72, hroot, .child hchild (.close (by decide +kernel)) (.nop (by decide +kernel) ?_)⟩
    exact .close (by decide +kernel)
  · exact .nil _
  · decide +kernel

theorem parses_nested : Parses nested 0 [⟨44, 92, [⟨64, 4⟩]⟩, ⟨72, 84, []⟩] := by
  refine (parses_iff nested 0 92 _ _ hasBlock_nested).mpr ⟨rfl, ?_⟩
  intro node hmem text htext
  fin_cases hmem
  · cases htext
  · cases htext

/-- An empty root with an `FDT_NOP` after it. -/
def nopAfterRoot : Mem := blob [1, 0, 2, 4, 9]

theorem hasBlock_nopAfterRoot : HasBlock nopAfterRoot 0 56 ⟨40, 52, []⟩ [] := by
  have hstart : 0 + offDtStruct (headerRead nopAfterRoot 0) 0 = 40 := by decide +kernel
  rw [HasBlock, hstart]
  constructor
  · exact .nil _
  · refine ⟨48, ⟨by decide +kernel, [], ⟨List.not_mem_nil, by decide +kernel⟩, .nil _⟩, ?_⟩
    exact .close (by decide +kernel)
  · exact .cons (by decide +kernel) (.nil _)
  · decide +kernel

/-- `parseDtb` fails its assertion on a well-formed block. -/
theorem exists_assertFailed :
    ∃ mem dtbEntry finish root subnodes, HasBlock mem dtbEntry finish root subnodes ∧
      (∀ᶠ fuel in atTop, parseDtb mem dtbEntry fuel = .assertFailed) ∧
      ¬ Parses mem dtbEntry (root :: subnodes) := by
  have hfail : ∀ᶠ fuel in atTop, parseDtb nopAfterRoot 0 fuel = .assertFailed :=
    dtbLoop_assertFailed hasBlock_nopAfterRoot (by decide)
      (List.forall_mem_singleton.mpr fun _ htext => by cases htext) ⟨0, 0⟩
  refine ⟨nopAfterRoot, 0, 56, _, _, hasBlock_nopAfterRoot, hfail, ?_⟩
  rintro ⟨⟨finish, memInfo, hdone⟩, -⟩
  exact not_done_of_eventually hfail (fun _ _ heq => by cases heq) hdone

end Painting.Dtb
