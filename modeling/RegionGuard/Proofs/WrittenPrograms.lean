import RegionGuard.CommandLine
import RegionGuard.Proofs.Constructions
import RegionGuard.Proofs.Decodings
import RegionGuard.Proofs.Instrumented
set_option autoImplicit false

namespace RegionGuard

open Json (FitsWords FitsWordsAll Spelled SpelledAll SpelledMembers spelled_ofList spelled_ofOption)
open Decoder

variable {k : Nat}

theorem encodeAll_eq (ts : List Ty) : Ty.encodeAll ts = ts.map Ty.encode := by
  induction ts with
  | nil => rfl
  | cons t ts ih => rw [Ty.encodeAll, ih, List.map_cons]

theorem fitsWords_of_mem {α : Type} {f : α → Json} {l : List α} (h : (Json.ofList f l).FitsWords) :
    ∀ a ∈ l, (f a).FitsWords := fun _ ha => Json.fitsWordsAll_iff.mp h _ (List.mem_map_of_mem ha)

theorem lt_modulus_of_fitsWords {n : Nat} (h : (Json.ofNat n).FitsWords) : n < Word.modulus := by exact_mod_cast h.2

namespace Ty

mutual

@[simp] theorem spelled : ∀ t : Ty, t.encode.Spelled
  | .void => by simp [encode, Spelled]
  | .integer _ => by simp [encode, Json.tagged, Spelled, SpelledMembers, Json.ofNat]
  | .pointer => by simp [encode, Spelled]
  | .array element _ => by
    simp [encode, Json.tagged, Spelled, SpelledAll, SpelledMembers, Json.ofWord, spelled element]
  | .struct fields => by simp [encode, Json.tagged, Spelled, SpelledMembers, spelled_all fields]
  | .function => by simp [encode, Spelled]

theorem spelled_all : ∀ ts : List Ty, SpelledAll (encodeAll ts)
  | [] => trivial
  | t :: ts => ⟨spelled t, spelled_all ts⟩

end

/-- A type is decoded level by level; one that has more levels than allowed opens more containers than there are. -/
theorem reads_within (levels : Nat) (t : Ty) (h : t.encode.FitsWords) :
    Reads levels (decodeWithin levels) t.encode t := by
  induction levels generalizing t with
  | zero => exact fun n hn hnl => by omega
  | succ levels ih =>
    cases t with
    | void => exact reads_tag rfl
    | integer bits => exact reads_tagged rfl ((reads_nat (lt_modulus_of_fitsWords h.1)).map Ty.integer)
    | pointer => exact reads_tag rfl
    | array element length =>
      refine reads_tagged rfl ((reads_pair ?_ (reads_word length)).map fun p => Ty.array p.1 p.2)
      exact (ih element h.1.1).mono (by omega)
    | struct fields =>
      have hfields : FitsWordsAll (encodeAll fields) := h.1
      rw [encodeAll_eq] at hfields
      refine reads_tagged rfl (Reads.map ?_ Ty.struct)
      rw [encodeAll_eq]
      exact reads_list fun t ht => (ih t (fitsWords_of_mem hfields t ht)).mono (by omega)
    | function => exact reads_tag rfl

theorem reads_encode (t : Ty) (h : t.encode.FitsWords) : Reads k decode t.encode t := fun n hn _ =>
  reads_within n t h n hn (Nat.le_refl n)

end Ty

namespace Variable

@[simp] theorem spelled (v : Variable) : v.encode.Spelled := by simp [encode, Spelled, SpelledMembers]

theorem reads_encode (v : Variable) (h : v.encode.FitsWords) : Reads k decode v.encode v :=
  reads_record [("name", .string v.name), ("ty", v.ty.encode)] rfl (by decide) fun _ hm hmk =>
    required_bind rfl (reads_string _) hm hmk <|
    required_bind rfl (v.ty.reads_encode h.2.1) hm hmk <|
    some_eq_within hm _

end Variable

namespace Argument

@[simp] theorem spelled (a : Argument) : a.encode.Spelled := by simp [encode, Spelled, SpelledMembers, Json.ofNat]

theorem reads_encode (a : Argument) (h : a.encode.FitsWords) : Reads k decode a.encode a :=
  reads_record [("index", .ofNat a.index), ("name", .string a.name), ("ty", a.ty.encode)] rfl (by decide)
    fun _ hm hmk =>
    required_bind rfl (reads_nat (lt_modulus_of_fitsWords h.1)) hm hmk <|
    required_bind rfl (reads_string _) hm hmk <|
    required_bind rfl (a.ty.reads_encode h.2.2.1) hm hmk <|
    some_eq_within hm _

end Argument

namespace Constant

@[simp] theorem spelled (c : Constant) : c.encode.Spelled := by
  simp [encode, Spelled, SpelledMembers, Json.ofNat, Json.ofWord]

theorem reads_encode (c : Constant) (h : c.encode.FitsWords) : Reads k decode c.encode c :=
  reads_record [("value", .ofWord c.value), ("bits", .ofNat c.bits)] rfl (by decide) fun _ hm hmk =>
    required_bind rfl (reads_word _) hm hmk <|
    required_bind rfl (reads_nat (lt_modulus_of_fitsWords h.2.1)) hm hmk <|
    some_eq_within hm _

end Constant

namespace Value

@[simp] theorem spelled (v : Value) : v.encode.Spelled := by
  cases v <;> simp [encode, Json.tagged, Spelled, SpelledMembers]

theorem encode_ne_null (v : Value) : v.encode ≠ .null := by cases v <;> exact nofun

theorem reads_encode (v : Value) (h : v.encode.FitsWords) : Reads k decode v.encode v := by
  cases v with
  | «variable» v => exact reads_tagged rfl ((v.reads_encode h.1).map Value.variable)
  | argument a => exact reads_tagged rfl ((a.reads_encode h.1).map Value.argument)
  | global name => exact reads_tagged rfl ((reads_string name).map Value.global)
  | function name => exact reads_tagged rfl ((reads_string name).map Value.function)
  | constant c => exact reads_tagged rfl ((c.reads_encode h.1).map Value.constant)
  | null => exact reads_tag rfl

end Value

theorem CastKind.reads_encode (c : CastKind) : Reads k decode (.string c.tag) c := by cases c <;> exact reads_tag rfl

theorem BinaryOperator.reads_encode (o : BinaryOperator) : Reads k decode (.string o.tag) o := by cases o <;> exact reads_tag rfl

theorem Predicate.reads_encode (p : Predicate) : Reads k decode (.string p.tag) p := by cases p <;> exact reads_tag rfl

theorem Linkage.reads_encode (l : Linkage) : Reads k decode (.string l.text) l := by cases l <;> exact reads_tag rfl

namespace CallTarget

@[simp] theorem spelled (t : CallTarget) : t.encode.Spelled := by
  cases t <;> simp [encode, Json.tagged, Spelled, SpelledMembers]

theorem reads_encode (t : CallTarget) (h : t.encode.FitsWords) : Reads k decode t.encode t := by
  cases t with
  | direct name => exact reads_tagged rfl ((reads_string name).map CallTarget.direct)
  | indirect address => exact reads_tagged rfl ((address.reads_encode h.1).map CallTarget.indirect)

end CallTarget

theorem reads_values (vs : List Value) (h : (Json.ofList Value.encode vs).FitsWords) :
    Reads k (.list Value.decode) (.ofList Value.encode vs) vs :=
  reads_list fun v hv => v.reads_encode (fitsWords_of_mem h v hv)

namespace Operation

@[simp] theorem spelled (o : Operation) : o.encode.Spelled := by
  have hvalues : ∀ vs : List Value, (Json.ofList Value.encode vs).Spelled := fun vs => spelled_ofList fun v _ => v.spelled
  have hvariable : ∀ v : Option Variable, (Json.ofOption Variable.encode v).Spelled := fun v =>
    spelled_ofOption fun v _ => v.spelled
  have hvalue : ∀ v : Option Value, (Json.ofOption Value.encode v).Spelled := fun v => spelled_ofOption fun v _ => v.spelled
  cases o with
  | phi dst incoming =>
    refine ⟨by simp, ⟨by simp, by simp, by simp, spelled_ofList fun e _ => ?_, trivial⟩, trivial⟩
    simp [Spelled, SpelledAll, Json.ofNat]
  | _ => simp [encode, Json.tagged, Spelled, SpelledMembers, hvalues, hvariable, hvalue]

theorem reads_encode (o : Operation) (h : o.encode.FitsWords) : Reads k decode o.encode o := by
  cases o with
  | alloca dst allocated count =>
    exact reads_tagged rfl <| reads_record
      [("dst", dst.encode), ("allocated", allocated.encode), ("count", count.encode)] rfl (by decide)
      fun _ hm hmk =>
      required_bind rfl (dst.reads_encode h.1.1) hm hmk <|
      required_bind rfl (allocated.reads_encode h.1.2.1) hm hmk <|
      required_bind rfl (count.reads_encode h.1.2.2.1) hm hmk <|
      some_eq_within hm _
  | load dst pointer =>
    exact reads_tagged rfl <| reads_record [("dst", dst.encode), ("pointer", pointer.encode)] rfl (by decide)
      fun _ hm hmk =>
      required_bind rfl (dst.reads_encode h.1.1) hm hmk <|
      required_bind rfl (pointer.reads_encode h.1.2.1) hm hmk <|
      some_eq_within hm _
  | store pointer value =>
    exact reads_tagged rfl <| reads_record [("pointer", pointer.encode), ("value", value.encode)] rfl
      (by decide) fun _ hm hmk =>
      required_bind rfl (pointer.reads_encode h.1.1) hm hmk <|
      required_bind rfl (value.reads_encode h.1.2.1) hm hmk <|
      some_eq_within hm _
  | cast dst kind src =>
    exact reads_tagged rfl <| reads_record
      [("dst", dst.encode), ("kind", .string kind.tag), ("src", src.encode)] rfl (by decide) fun _ hm hmk =>
      required_bind rfl (dst.reads_encode h.1.1) hm hmk <|
      required_bind rfl kind.reads_encode hm hmk <|
      required_bind rfl (src.reads_encode h.1.2.2.1) hm hmk <|
      some_eq_within hm _
  | elementPtr dst base source indices inbounds =>
    exact reads_tagged rfl <| reads_record
      [("dst", dst.encode), ("base", base.encode), ("source", source.encode),
        ("indices", .ofList Value.encode indices), ("inbounds", .bool inbounds)] rfl (by decide) fun _ hm hmk =>
      required_bind rfl (dst.reads_encode h.1.1) hm hmk <|
      required_bind rfl (base.reads_encode h.1.2.1) hm hmk <|
      required_bind rfl (source.reads_encode h.1.2.2.1) hm hmk <|
      required_bind rfl (reads_values indices h.1.2.2.2.1) hm hmk <|
      required_bind rfl (reads_bool inbounds) hm hmk <|
      some_eq_within hm _
  | binary dst op lhs rhs =>
    exact reads_tagged rfl <| reads_record
      [("dst", dst.encode), ("op", .string op.tag), ("lhs", lhs.encode), ("rhs", rhs.encode)] rfl (by decide)
      fun _ hm hmk =>
      required_bind rfl (dst.reads_encode h.1.1) hm hmk <|
      required_bind rfl op.reads_encode hm hmk <|
      required_bind rfl (lhs.reads_encode h.1.2.2.1) hm hmk <|
      required_bind rfl (rhs.reads_encode h.1.2.2.2.1) hm hmk <|
      some_eq_within hm _
  | compare dst predicate lhs rhs =>
    exact reads_tagged rfl <| reads_record
      [("dst", dst.encode), ("predicate", .string predicate.tag), ("lhs", lhs.encode), ("rhs", rhs.encode)]
      rfl (by decide) fun _ hm hmk =>
      required_bind rfl (dst.reads_encode h.1.1) hm hmk <|
      required_bind rfl predicate.reads_encode hm hmk <|
      required_bind rfl (lhs.reads_encode h.1.2.2.1) hm hmk <|
      required_bind rfl (rhs.reads_encode h.1.2.2.2.1) hm hmk <|
      some_eq_within hm _
  | select dst condition onTrue onFalse =>
    exact reads_tagged rfl <| reads_record
      [("dst", dst.encode), ("condition", condition.encode), ("on_true", onTrue.encode),
        ("on_false", onFalse.encode)] rfl (by decide) fun _ hm hmk =>
      required_bind rfl (dst.reads_encode h.1.1) hm hmk <|
      required_bind rfl (condition.reads_encode h.1.2.1) hm hmk <|
      required_bind rfl (onTrue.reads_encode h.1.2.2.1) hm hmk <|
      required_bind rfl (onFalse.reads_encode h.1.2.2.2.1) hm hmk <|
      some_eq_within hm _
  | phi dst incoming =>
    have hincoming : Reads (k - 1 - 1) (.list (.pair Value.decode .nat))
        (.ofList (fun e : Value × Nat => .array [e.1.encode, .ofNat e.2]) incoming) incoming :=
      reads_list fun e he =>
        have hfits := fitsWords_of_mem h.1.2.1 e he
        reads_pair (e.1.reads_encode hfits.1) (reads_nat (lt_modulus_of_fitsWords hfits.2.1))
    exact reads_tagged rfl <| reads_record
      [("dst", dst.encode),
        ("incoming", .ofList (fun e : Value × Nat => .array [e.1.encode, .ofNat e.2]) incoming)] rfl
      (by decide) fun _ hm hmk =>
      required_bind rfl (dst.reads_encode h.1.1) hm hmk <|
      required_bind rfl hincoming hm hmk <|
      some_eq_within hm _
  | call dst target arguments =>
    have hdst : Reads (k - 1 - 1) (.optional Variable.decode) (.ofOption Variable.encode dst) dst := by
      refine reads_optional (fun v hv => v.reads_encode ?_) fun v _ => nofun
      rw [Option.mem_def.mp hv] at h
      exact h.1.1
    exact reads_tagged rfl <| reads_record
      [("dst", .ofOption Variable.encode dst), ("target", target.encode),
        ("arguments", .ofList Value.encode arguments)] rfl (by decide) fun _ hm hmk =>
      optional_bind rfl hdst hm hmk <|
      required_bind rfl (target.reads_encode h.1.2.1) hm hmk <|
      required_bind rfl (reads_values arguments h.1.2.2.1) hm hmk <|
      some_eq_within hm _
  | ret value =>
    have hvalue : Reads (k - 1 - 1) (.optional Value.decode) (.ofOption Value.encode value) value := by
      refine reads_optional (fun v hv => v.reads_encode ?_) fun v _ => v.encode_ne_null
      rw [Option.mem_def.mp hv] at h
      exact h.1.1
    exact reads_tagged rfl <| reads_record [("value", .ofOption Value.encode value)] rfl (by decide)
      fun _ hm hmk =>
      optional_bind rfl hvalue hm hmk <|
      some_eq_within hm _
  | nop => exact reads_tag rfl

end Operation

theorem spelled_ofEntries {κ α : Type} (spell : κ → String) {f : α → Json} {l : List (κ × α)}
    (h : ∀ e ∈ l, (f e.2).Spelled) : (Json.object (l.map fun e => (.ofText (spell e.1), f e.2))).Spelled := by
  refine Json.spelledMembers_iff.mpr fun m hm => ?_
  obtain ⟨e, he, rfl⟩ := List.mem_map.mp hm
  exact ⟨Json.Literal.closes_ofText _, h e he⟩

theorem fitsWords_of_mem_entries {κ α : Type} (spell : κ → Json.Literal) {f : α → Json} {l : List (κ × α)}
    (h : (Json.object (l.map fun e => (spell e.1, f e.2))).FitsWords) : ∀ e ∈ l, (f e.2).FitsWords := fun e he =>
  Json.fitsWordsMembers_iff.mp h (spell e.1, f e.2) (List.mem_map.mpr ⟨e, he, rfl⟩)

namespace Instruction

def fields (i : Instruction) : List (String × Json) :=
  [("operation", i.operation.encode), ("index", .ofNat i.index), ("comment", .ofOption Json.ofText i.comment),
    ("metadata", .object (i.metadata.entries.map fun e => (Json.Literal.ofText e.1, Json.ofText e.2)))]

theorem encode_eq (i : Instruction) : i.encode = .ofMembers i.fields := by
  obtain ⟨operation, index, comment, metadata⟩ := i
  cases comment <;> rfl

@[simp] theorem spelled (i : Instruction) : i.encode.Spelled := by
  rw [encode_eq]
  refine ⟨by simp, by simp, by simp, trivial, by simp, ?_, by simp, ?_, trivial⟩
  · exact spelled_ofOption fun s _ => Json.Literal.closes_ofText s
  · exact spelled_ofEntries id (f := Json.ofText) fun e _ => Json.Literal.closes_ofText e.2

theorem reads_encode (i : Instruction) (h : i.encode.FitsWords) : Reads k decode i.encode i := by
  have hcomment : Reads (k - 1) (.optional .string) (.ofOption Json.ofText i.comment) i.comment :=
    reads_optional (fun s _ => reads_string s) fun _ _ => nofun
  have hmetadata : Reads (k - 1) (.table Json.Literal.text? .string)
      (.object (i.metadata.entries.map fun e => (Json.Literal.ofText e.1, Json.ofText e.2))) i.metadata :=
    reads_table .ofText (fun e _ => Json.Literal.text?_ofText e.1) fun e _ => reads_string e.2
  rw [encode_eq] at h ⊢
  exact reads_record i.fields rfl (by decide) fun _ hm hmk =>
    required_bind rfl (i.operation.reads_encode h.1) hm hmk <|
    required_bind rfl (reads_nat (lt_modulus_of_fitsWords h.2.1)) hm hmk <|
    optional_bind rfl hcomment hm hmk <|
    defaulted_bind rfl hmetadata hm hmk <|
    some_eq_within hm _

end Instruction

namespace Block

@[simp] theorem spelled (b : Block) : b.encode.Spelled :=
  ⟨by simp, trivial, by simp, trivial, by simp, spelled_ofList fun i _ => i.spelled, trivial⟩

theorem reads_encode (b : Block) (h : b.encode.FitsWords) : Reads k decode b.encode b :=
  reads_record
    [("index", .ofNat b.index), ("next_instruction_index", .ofNat b.nextIndex),
      ("instructions", .ofList Instruction.encode b.instructions)] rfl (by decide) fun _ hm hmk =>
    required_bind rfl (reads_nat (lt_modulus_of_fitsWords h.1)) hm hmk <|
    required_bind rfl (reads_nat (lt_modulus_of_fitsWords h.2.1)) hm hmk <|
    required_bind rfl (reads_list fun i hi => i.reads_encode (fitsWords_of_mem h.2.2.1 i hi)) hm hmk <|
    some_eq_within hm _

end Block

namespace FlowGraph

variable {c : FlowGraph}

def KeysFit {α : Type} (t : Table Nat α) : Prop := ∀ e ∈ t.entries, e.1 < Word.modulus

theorem reads_indexed {α : Type} {d : Decoder α} {f : α → Json} {t : Table Nat α} (keys : KeysFit t)
    (hf : ∀ e ∈ t.entries, Reads (k - 1) d (f e.2) e.2) : Reads k (.table natKey d) (.ofIndexed f t) t :=
  reads_table (fun n => .ofText (toString n)) (fun e he => natKey_toString (keys e he)) hf

theorem reads_neighbors {t : Table Nat (KeySet Nat)} (keys : KeysFit t)
    (h : (Json.ofIndexed (fun s : KeySet Nat => .nats s.keys) t).FitsWords) :
    Reads k (.table natKey (.keySet .nat)) (.ofIndexed (fun s : KeySet Nat => .nats s.keys) t) t :=
  reads_indexed keys fun e he => reads_keySet fun n hn =>
    have hkeys : (Json.nats e.2.keys).FitsWords :=
      fitsWords_of_mem_entries (fun n => .ofText (toString n)) (f := fun s : KeySet Nat => .nats s.keys) h e he
    reads_nat (lt_modulus_of_fitsWords (fitsWords_of_mem hkeys n hn))

theorem spelled_indexed {α : Type} {f : α → Json} {t : Table Nat α} (h : ∀ e ∈ t.entries, (f e.2).Spelled) :
    (Json.ofIndexed f t).Spelled := spelled_ofEntries toString h

theorem spelled_neighbors (t : Table Nat (KeySet Nat)) :
    (Json.ofIndexed (fun s : KeySet Nat => .nats s.keys) t).Spelled :=
  spelled_indexed fun _ _ => spelled_ofList fun _ _ => trivial

theorem keysFit_of_isSome {α : Type} {t : Table Nat α} {n : Nat} (hn : n < Word.modulus)
    (h : ∀ v, (t.get? v).isSome → v < n) : KeysFit t := fun e he => by
  have := h e.1 (Option.isSome_iff_exists.mpr ⟨e.2, (Table.get?_eq_some_iff ..).mpr he⟩)
  omega

def graphFields (g : Graph Block Edge) : List (String × Json) :=
  [("vertices", .ofIndexed Block.encode g.vertices), ("edges", .object []),
    ("successors", .ofIndexed (fun s : KeySet Nat => .nats s.keys) g.successors),
    ("predecessors", .ofIndexed (fun s : KeySet Nat => .nats s.keys) g.predecessors)]

theorem encodeGraph?_eq (g : Graph Block Edge) :
    encodeGraph? g = if g.edges = ∅ then some (.ofMembers (graphFields g)) else none := by
  have hempty : g.edges.isEmpty = true ↔ g.edges = ∅ := by
    unfold Table.isEmpty
    rw [List.isEmpty_iff]
    exact ⟨fun h => Table.ext h, congrArg Table.entries⟩
  unfold encodeGraph?
  simp only [hempty]
  rfl

theorem reads_graphFields {g : Graph Block Edge} (edges : g.edges = ∅) (h : (Json.ofMembers (graphFields g)).FitsWords)
    (vertices : KeysFit g.vertices) (successors : KeysFit g.successors) (predecessors : KeysFit g.predecessors) :
    Reads k decodeGraph (.ofMembers (graphFields g)) g := by
  have hvertices : Reads (k - 1) (.table natKey Block.decode) (.ofIndexed Block.encode g.vertices) g.vertices :=
    reads_indexed vertices fun e he => e.2.reads_encode
      (fitsWords_of_mem_entries (fun n => .ofText (toString n)) (f := Block.encode) h.1 e he)
  have hedges : Reads (k - 1) (.table (fun _ => none) Edge.decode) (.object []) g.edges := by
    rw [edges]
    exact reads_table (fun _ => .ofText "") (t := ∅) (f := Edge.encode) nofun nofun
  have hsuccessors : Reads (k - 1) (.table natKey (.keySet .nat))
      (.ofIndexed (fun s : KeySet Nat => .nats s.keys) g.successors) g.successors :=
    reads_neighbors successors h.2.2.1
  have hpredecessors : Reads (k - 1) (.table natKey (.keySet .nat))
      (.ofIndexed (fun s : KeySet Nat => .nats s.keys) g.predecessors) g.predecessors :=
    reads_neighbors predecessors h.2.2.2.1
  unfold decodeGraph
  exact reads_record (graphFields g) rfl (by decide) fun _ hm hmk =>
    required_bind rfl hvertices hm hmk <|
    required_bind rfl hedges hm hmk <|
    required_bind rfl hsuccessors hm hmk <|
    required_bind rfl hpredecessors hm hmk <|
    some_eq_within hm _

theorem spelled_graphFields (g : Graph Block Edge) : (Json.ofMembers (graphFields g)).Spelled :=
  ⟨by simp, spelled_indexed fun e _ => e.2.spelled, by simp, trivial, by simp, spelled_neighbors _, by simp,
    spelled_neighbors _, trivial⟩

theorem encode?_eq (c : FlowGraph) : c.encode? = if c.graph.edges = ∅ then
      some (.ofMembers [("graph", .ofMembers (graphFields c.graph)), ("next_index", .ofNat c.nextBlock),
        ("next_temp_index", .ofNat c.nextTemp), ("entry", .ofOption .ofNat c.entry)])
    else none := by
  unfold encode?
  rw [encodeGraph?_eq]
  split <;> rfl

theorem encode?_isSome : c.encode?.isSome ↔ c.graph.edges = ∅ := by
  rw [encode?_eq]
  split <;> simp_all

theorem encode?_ne_null {j : Json} (hj : c.encode? = some j) : j ≠ .null := by
  rw [encode?_eq] at hj
  split at hj <;> cases hj
  exact nofun

theorem spelled {j : Json} (hj : c.encode? = some j) : j.Spelled := by
  rw [encode?_eq] at hj
  split at hj <;> cases hj
  exact ⟨by simp, spelled_graphFields _, by simp, trivial, by simp, trivial, by simp, spelled_ofOption fun _ _ => trivial,
    trivial⟩

theorem reads_encode {j : Json} (made : c.Made) (hj : c.encode? = some j) (h : j.FitsWords) : Reads k decode j c := by
  have hnone := encode?_isSome.mp (by rw [hj]; rfl)
  rw [encode?_eq, if_pos hnone] at hj
  cases hj
  have hnext : c.nextBlock < Word.modulus := lt_modulus_of_fitsWords h.2.1
  have wired := made.wired
  have hvertices : ∀ v, (c.graph.vertices.get? v).isSome → v < c.nextBlock := fun v hv => made.bounded hv
  have hgraph : Reads (k - 1) decodeGraph (.ofMembers (graphFields c.graph)) c.graph :=
    reads_graphFields hnone h.1 (keysFit_of_isSome hnext hvertices)
      (keysFit_of_isSome hnext fun v hv => hvertices v ((wired.hasSuccessors v).symm.trans hv))
      (keysFit_of_isSome hnext fun v hv => hvertices v ((wired.hasPredecessors v).symm.trans hv))
  have hentry : Reads (k - 1) (.optional .nat) (.ofOption .ofNat c.entry) c.entry := by
    refine reads_optional (fun n hn => reads_nat (lt_modulus_of_fitsWords ?_)) fun _ _ => nofun
    have hfits := h.2.2.2.1
    rwa [Option.mem_def.mp hn] at hfits
  exact reads_record
    [("graph", .ofMembers (graphFields c.graph)), ("next_index", .ofNat c.nextBlock),
      ("next_temp_index", .ofNat c.nextTemp), ("entry", .ofOption .ofNat c.entry)] rfl (by decide) fun _ hm hmk =>
    required_bind rfl hgraph hm hmk <|
    required_bind rfl (reads_nat hnext) hm hmk <|
    required_bind rfl (reads_nat (lt_modulus_of_fitsWords h.2.2.1)) hm hmk <|
    optional_bind rfl hentry hm hmk <|
    some_eq_within hm _

end FlowGraph

namespace Function

variable {f : Function} {j : Json}

def fields (f : Function) (body : Json) : List (String × Json) :=
  [("name", .string f.name), ("arguments", .ofList Argument.encode f.arguments), ("return_type", f.returnType.encode),
    ("linkage", .string f.linkage.text), ("control_flow_graph", body)]

theorem encode?_eq (f : Function) : f.encode? = match f.body with
    | some c => c.encode?.map fun body => .ofMembers (f.fields body)
    | none => some (.ofMembers (f.fields .null)) := by
  unfold encode?
  cases f.body with
  | none => rfl
  | some c => exact Option.map_eq_bind.symm

theorem encode?_isSome : f.encode?.isSome ↔ ∀ c ∈ f.body, c.graph.edges = ∅ := by
  rw [encode?_eq]
  cases f.body with
  | none => simp
  | some c => simp [FlowGraph.encode?_isSome]

theorem exists_of_encode? (h : f.encode? = some j) :
    ∃ body, j = .ofMembers (f.fields body) ∧
      (f.body = none ∧ body = .null ∨ ∃ c, f.body = some c ∧ c.encode? = some body) := by
  rw [encode?_eq] at h
  split at h
  · rename_i c hc
    obtain ⟨body, hbody, hj⟩ := Option.map_eq_some_iff.mp h
    exact ⟨body, hj.symm, .inr ⟨c, hc, hbody⟩⟩
  · rename_i hnone
    cases h
    exact ⟨.null, rfl, .inl ⟨hnone, rfl⟩⟩

theorem spelled (h : f.encode? = some j) : j.Spelled := by
  obtain ⟨body, rfl, hbody⟩ := exists_of_encode? h
  refine ⟨by simp, by simp [Spelled], by simp, spelled_ofList fun a _ => a.spelled, by simp, by simp, by simp,
    by simp [Spelled], by simp, ?_, trivial⟩
  rcases hbody with ⟨-, rfl⟩ | ⟨c, -, hc⟩
  · trivial
  · exact FlowGraph.spelled hc

theorem reads_encode (made : ∀ c ∈ f.body, c.Made) (h : f.encode? = some j) (fits : j.FitsWords) :
    Reads k decode j f := by
  obtain ⟨body, rfl, hbody⟩ := exists_of_encode? h
  have harguments : Reads (k - 1) (.list Argument.decode) (.ofList Argument.encode f.arguments) f.arguments :=
    reads_list fun a ha => a.reads_encode (fitsWords_of_mem fits.2.1 a ha)
  have hgraph : Reads (k - 1) (.optional FlowGraph.decode) body f.body := by
    rcases hbody with ⟨hnone, rfl⟩ | ⟨c, hc, hj⟩
    · rw [hnone]
      exact reads_leaf rfl fun _ => rfl
    · rw [hc]
      exact reads_optional (f := fun _ => body) (o := some c)
        (fun _ hd => Option.mem_some_iff.mp hd ▸ FlowGraph.reads_encode (made c hc) hj fits.2.2.2.2.1)
        fun _ _ => FlowGraph.encode?_ne_null hj
  exact reads_record (f.fields body) rfl (by decide) fun _ hm hmk =>
    required_bind rfl (reads_string _) hm hmk <|
    required_bind rfl harguments hm hmk <|
    required_bind rfl (f.returnType.reads_encode fits.2.2.1) hm hmk <|
    defaulted_bind rfl f.linkage.reads_encode hm hmk <|
    optional_bind rfl hgraph hm hmk <|
    some_eq_within hm _

end Function

namespace GlobalVariable

@[simp] theorem spelled (g : GlobalVariable) : g.encode.Spelled := by simp [encode, Spelled, SpelledMembers]

theorem reads_encode (g : GlobalVariable) (h : g.encode.FitsWords) : Reads k decode g.encode g :=
  reads_record
    [("name", .string g.name), ("ty", g.ty.encode), ("linkage", .string g.linkage.text),
      ("defined", .bool g.isDefined)] rfl (by decide) fun _ hm hmk =>
    required_bind rfl (reads_string _) hm hmk <|
    required_bind rfl (g.ty.reads_encode h.2.1) hm hmk <|
    defaulted_bind rfl g.linkage.reads_encode hm hmk <|
    required_bind rfl (reads_bool _) hm hmk <|
    some_eq_within hm _

end GlobalVariable

namespace Program

variable {p : Program} {j : Json}

def fields (p : Program) : List (String × Json) :=
  [("functions", .object (p.functions.entries.map fun e => (.ofText e.1, e.2.encode?.getD .null))),
    ("globals", .object (p.globals.entries.map fun e => (.ofText e.1, e.2.encode)))]

theorem mapM_encode? (l : List (String × Function)) :
    (l.mapM fun e => return (Json.Literal.ofText e.1, ← e.2.encode?)) =
      if ∀ e ∈ l, e.2.encode?.isSome then some (l.map fun e => (.ofText e.1, e.2.encode?.getD .null)) else none := by
  induction l with
  | nil => simp
  | cons e rest ih =>
    rw [List.mapM_cons, ih]
    cases hj : e.2.encode? with
    | none => simp [hj]
    | some j =>
      simp only [List.forall_mem_cons, hj, Option.isSome_some, true_and, List.map_cons]
      split <;> rfl

theorem encode?_eq (p : Program) : p.encode? =
    if ∀ e ∈ p.functions.entries, e.2.encode?.isSome then some (.ofMembers p.fields) else none := by
  have hfunctions := mapM_encode? p.functions.entries
  unfold encode?
  rw [hfunctions]
  split <;> rfl

theorem encode?_isSome : p.encode?.isSome ↔
    ∀ name f, p.function? name = some f → ∀ c ∈ f.body, c.graph.edges = ∅ := by
  have hsome : p.encode?.isSome ↔ ∀ e ∈ p.functions.entries, e.2.encode?.isSome := by
    rw [encode?_eq]
    split
    · rename_i hall
      exact ⟨fun _ => hall, fun _ => rfl⟩
    · rename_i hnot
      exact ⟨fun h => (by cases h), fun h => absurd h hnot⟩
  rw [hsome]
  simp only [Function.encode?_isSome]
  exact ⟨fun h name f hf => h (name, f) ((Table.get?_eq_some_iff ..).mp hf),
    fun h e he => h e.1 e.2 ((Table.get?_eq_some_iff ..).mpr he)⟩

theorem eq_of_encode? (h : p.encode? = some j) :
    j = .ofMembers p.fields ∧ ∀ e ∈ p.functions.entries, e.2.encode? = some (e.2.encode?.getD .null) := by
  rw [encode?_eq] at h
  split at h
  · rename_i hall
    cases h
    refine ⟨rfl, fun e he => ?_⟩
    obtain ⟨body, hbody⟩ := Option.isSome_iff_exists.mp (hall e he)
    rw [hbody]
    rfl
  · cases h

theorem spelled (h : p.encode? = some j) : j.Spelled := by
  obtain ⟨rfl, hfunctions⟩ := eq_of_encode? h
  refine ⟨by simp, ?_, by simp, ?_, trivial⟩
  · exact spelled_ofEntries id (f := fun f : Function => f.encode?.getD .null) fun e he =>
      Function.spelled (hfunctions e he)
  · exact spelled_ofEntries id (f := GlobalVariable.encode) fun e _ => e.2.spelled

theorem reads_encode (made : p.Made) (h : p.encode? = some j) (fits : j.FitsWords) : Reads k decode j p := by
  obtain ⟨rfl, hwritten⟩ := eq_of_encode? h
  have hfunctions : Reads (k - 1) (.table Json.Literal.text? Function.decode)
      (.object (p.functions.entries.map fun e => (.ofText e.1, e.2.encode?.getD .null))) p.functions := by
    refine reads_table .ofText (f := fun f : Function => f.encode?.getD .null)
      (fun e _ => Json.Literal.text?_ofText e.1) fun e he => ?_
    exact Function.reads_encode (made.body ((Table.get?_eq_some_iff ..).mpr he)) (hwritten e he)
      (fitsWords_of_mem_entries .ofText (f := fun f : Function => f.encode?.getD .null) fits.1 e he)
  have hglobals : Reads (k - 1) (.table Json.Literal.text? GlobalVariable.decode)
      (.object (p.globals.entries.map fun e => (.ofText e.1, e.2.encode))) p.globals := by
    refine reads_table .ofText (f := GlobalVariable.encode)
      (fun e _ => Json.Literal.text?_ofText e.1) fun e he => ?_
    exact e.2.reads_encode (fitsWords_of_mem_entries .ofText (f := GlobalVariable.encode) fits.2.1 e he)
  exact reads_record p.fields rfl (by decide) fun _ hm hmk =>
    required_bind rfl hfunctions hm hmk <|
    defaulted_bind rfl hglobals hm hmk <|
    some_eq_within hm _

theorem decodeFile_written (made : p.Made) (h : p.encode? = some j) (fits : j.FitsWords) :
    CommandLine.decodeFile decode (some (j.pretty "")) = if j.depth < nesting then .ok p else Failure.raise .malformed := by
  have hparse : Json.parse? (j.pretty "") = some j := Json.parse?_pretty (spelled h)
  have hread : decode.run j = if j.depth < nesting then some p else none :=
    reads_encode (k := nesting) made h fits nesting (by decide) (Nat.le_refl _)
  have hfile : CommandLine.decodeFile decode (some (j.pretty "")) =
      Failure.orRaise ((Json.parse? (j.pretty "")).bind decode.run) .malformed := rfl
  rw [hfile, hparse, Option.bind_some, hread]
  split <;> rfl

/-- A program that is put together step by step has a written form just when none of its functions has an edge. A
file that holds the written form gives the program back, unless the form nests too deep for a file. -/
theorem decodeFile_of_encode? (made : p.Made) :
    (p.encode?.isSome ↔ ∀ name f, p.function? name = some f → ∀ c ∈ f.body, c.graph.edges = ∅) ∧
      ∀ j, p.encode? = some j → j.FitsWords →
        CommandLine.decodeFile decode (some (j.pretty "")) =
          if j.depth < nesting then .ok p else Failure.raise .malformed :=
  ⟨encode?_isSome, fun _ hj fits => decodeFile_written made hj fits⟩

end Program

def answering : Program :=
  (Program.ofFunctions [.ofCode "main" [] [[.load ⟨"x", .integer 64⟩ (.global "limit"), .ret none]] [],
    .declaration "puts" [⟨0, "text", .pointer⟩] (.integer 32)]).addGlobal ⟨"limit", .integer 64, .internal, true⟩

theorem made_answering : answering.Made := .addGlobal <| Program.made_of_ofFunctions fun f hf => by
  rcases List.mem_cons.mp hf with rfl | hf
  · exact Function.made_of_ofCode
  · cases List.mem_singleton.mp hf
    exact nofun

theorem decodeFile_of_encode?_answering :
    ∃ j, answering.encode? = some j ∧ CommandLine.decodeFile Program.decode (some (j.pretty "")) = .ok answering := by
  obtain ⟨hwritten, hread⟩ := Program.decodeFile_of_encode? made_answering
  obtain ⟨j, hj⟩ := Option.isSome_iff_exists.mp (show answering.encode?.isSome by decide +kernel)
  obtain ⟨rfl, -⟩ := Program.eq_of_encode? hj
  refine ⟨_, hj, ?_⟩
  rw [hread _ hj (by decide +kernel), if_pos (by decide +kernel)]

def branching : Program := .ofFunctions [.ofCode "main" [] [[], [.ret none]] [(0, 1, none)]]

theorem made_branching : branching.Made := Program.made_of_ofFunctions fun f hf => by
  cases List.mem_singleton.mp hf
  exact Function.made_of_ofCode

def Ty.nested : Nat → Ty
  | 0 => .integer 8
  | n + 1 => .array (nested n) 1

def towering : Program := Program.empty.addGlobal ⟨"tower", .nested 70, .external, true⟩

/-- A program with an edge is not written, and one with a type of many levels is written but not read back. -/
theorem exists_not_written_and_exists_not_read :
    (∃ p : Program, p.Made ∧ p.encode? = none) ∧
      ∃ (p : Program) (j : Json), p.Made ∧ p.encode? = some j ∧
        CommandLine.decodeFile Program.decode (some (j.pretty "")) ≠ .ok p := by
  refine ⟨⟨branching, made_branching, by decide +kernel⟩, ?_⟩
  have made : towering.Made := .addGlobal .empty
  obtain ⟨j, hj⟩ := Option.isSome_iff_exists.mp (show towering.encode?.isSome by decide +kernel)
  obtain ⟨rfl, -⟩ := Program.eq_of_encode? hj
  refine ⟨towering, _, made, hj, ?_⟩
  rw [Program.decodeFile_written made hj (by decide +kernel), if_neg (by decide +kernel)]
  exact nofun

end RegionGuard
