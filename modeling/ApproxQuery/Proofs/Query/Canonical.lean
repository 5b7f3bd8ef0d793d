import ApproxQuery.Proofs.Json.Canonical
import ApproxQuery.Proofs.Query.Levels
import ApproxQuery.Query.Decoding
import ApproxQuery.Query.Encoding

/-! A query is read back from its canonical text: each form of expression and each kind of item from its
fields, one level after the other. -/
namespace ApproxQuery

open Data

namespace Data

theorem ok_bind {α β : Type} (a : α) (next : α → Read β) : (Except.ok a : Read α) >>= next = next a := rfl

theorem map_ok {α β : Type} (f : α → β) (a : α) : f <$> (Except.ok a : Read α) = .ok (f a) := rfl

theorem depthOfItems_le {items : List Data} {bound : Nat} :
    depthOfItems items ≤ bound ↔ ∀ d ∈ items, d.depth ≤ bound := by
  induction items with
  | nil => simp [depthOfItems]
  | cons d rest ih => rw [depthOfItems, Nat.max_le, ih, List.forall_mem_cons]

theorem depthOfFields_le {fields : List (String × Data)} {bound : Nat} :
    depthOfFields fields ≤ bound ↔ ∀ field ∈ fields, field.2.depth ≤ bound := by
  induction fields with
  | nil => simp [depthOfFields]
  | cons field rest ih => rw [depthOfFields, Nat.max_le, ih, List.forall_mem_cons]

/-- The fields that a type names are all kept. -/
theorem selectFields_eq {names : List String} {fields : List (String × Data)}
    (known : ∀ field ∈ fields, field.1 ∈ names) (distinct : (fields.map Prod.fst).Nodup) :
    selectFields names fields = .ok fields := by
  induction fields with
  | nil => rfl
  | cons field rest ih =>
    rcases field with ⟨key, d⟩
    obtain ⟨absent, distinctRest⟩ := List.nodup_cons.mp distinct
    have other : rest.any (fun field => field.1 = key) = false := by
      rw [List.any_eq_false]
      intro field member same
      exact absent (List.mem_map.mpr ⟨field, member, of_decide_eq_true same⟩)
    have own : key ∈ names := known (key, d) List.mem_cons_self
    rw [selectFields, ih (fun field member => known field (List.mem_cons_of_mem _ member)) distinctRest]
    simp [bind, Except.bind, pure, Except.pure, own, other]

/-- A record of all fields of a type is taken field by field. -/
theorem readFields_record (names : List String) (fields : List (String × Data))
    (named : fields.map Prod.fst = names) (distinct : names.Nodup) :
    readFields names (.record fields) = .ok fields := by
  subst named
  exact selectFields_eq (fun field member => List.mem_map_of_mem member) distinct

theorem readVariantFields_record (names : List String) (fields : List (String × Data))
    (named : fields.map Prod.fst = names) (distinct : names.Nodup) :
    readVariantFields json names (.record fields) = .ok fields := readFields_record names fields named distinct

namespace Fields

variable {α : Type} (key name : String) (d : Data) (rest : Fields) (read : Data → Read α)

theorem required_cons : Fields.required ((key, d) :: rest) name read
    = if name = key then read d else Fields.required rest name read := by
  by_cases same : name = key <;> simp [required, List.lookup_cons, same, beq_eq_decide]

theorem optional_cons : Fields.optional ((key, d) :: rest) name read
    = if name = key then readOption read d else Fields.optional rest name read := by
  by_cases same : name = key <;> simp [Fields.optional, List.lookup_cons, same, beq_eq_decide]

theorem withDefault_cons (default : α) : Fields.withDefault ((key, d) :: rest) name default read
    = if name = key then read d else Fields.withDefault rest name default read := by
  by_cases same : name = key <;> simp [withDefault, List.lookup_cons, same, beq_eq_decide]

end Fields

theorem Exact.variant {name : String} {content : Data} (exact : content.Exact) :
    (Data.variant name content).Exact := .record fun _ member => List.mem_singleton.mp member ▸ exact

theorem Exact.ofOption {α : Type} {encode : α → Data} {value : Option α}
    (each : ∀ a ∈ value, (encode a).Exact) : (Data.ofOption encode value).Exact := by
  cases value with
  | none => exact .null
  | some a => exact each a rfl

theorem Exact.word {n : Nat} (fits : n < UInt64.size) : (ofNat n).Exact :=
  .int (by omega) (by exact_mod_cast fits)

/-- An optional value is read back where nothing is taken for its absence. -/
theorem readOption_ofOption {α : Type} {encode : α → Data} {read : Data → Read α} {value : Option α}
    (each : ∀ a ∈ value, (encode a).isAbsent = .ok false ∧ read (encode a) = .ok a) :
    readOption read (Data.ofOption encode value) = .ok value := by
  cases value with
  | none => rfl
  | some a =>
    obtain ⟨present, back⟩ := each a rfl
    simp [readOption, Data.ofOption, present, back, ok_bind, pure, Except.pure]

theorem readOption_str (value : Option String) : readOption readText (Data.ofOption .str value) = .ok value :=
  readOption_ofOption fun _ _ => ⟨rfl, rfl⟩

theorem readList_map {α : Type} {encode : α → Data} {read : Data → Read α} {values : List α}
    (each : ∀ a ∈ values, read (encode a) = .ok a) : readList read (.list (values.map encode)) = .ok values := by
  rw [readList]
  induction values with
  | nil => rfl
  | cons a rest ih =>
    rw [List.map_cons, List.mapM_cons, each a List.mem_cons_self,
      ih fun b member => each b (List.mem_cons_of_mem _ member)]
    rfl

theorem depth_content {name : String} {content : Data} {depth : Nat}
    (enough : (Data.variant name content).depth ≤ depth + 1) : content.depth ≤ depth := by
  have inner : max content.depth 0 ≤ depth := Nat.le_of_succ_le_succ enough
  exact (Nat.max_le.mp inner).1

/-- What the fields of a variant leave of the depth. -/
theorem depth_field {name : String} {fields : List (String × Data)} {depth : Nat}
    (enough : (Data.variant name (.record fields)).depth ≤ depth + 1) :
    ∀ field ∈ fields, field.2.depth ≤ depth := by
  have inner : depthOfFields fields + 1 ≤ depth := depth_content enough
  exact depthOfFields_le.mp (Nat.le_of_succ_le inner)

theorem depth_record {fields : List (String × Data)} {depth : Nat}
    (enough : (record fields).depth ≤ depth + 1) : ∀ field ∈ fields, field.2.depth ≤ depth :=
  depthOfFields_le.mp (Nat.le_of_succ_le_succ enough)

theorem depth_items {items : List Data} {depth : Nat} (enough : (list items).depth ≤ depth) :
    ∀ d ∈ items, d.depth ≤ depth := depthOfItems_le.mp (Nat.le_of_succ_le enough)

/-- The data can be written as JSON text, and the value is read from it with room for its nesting. -/
structure Keeps {α : Type} (read : Nat → Data → Read α) (d : Data) (a : α) : Prop where
  exact : d.Exact
  back : ∀ depth, d.depth ≤ depth → read depth d = .ok a

theorem depth_pos (d : Data) : 0 < d.depth := by
  cases d <;> simp [depth]

theorem Keeps.of_step {α : Type} {read : Nat → Data → Read α} {d : Data} {a : α} (exact : d.Exact)
    (step : ∀ depth, d.depth ≤ depth + 1 → read (depth + 1) d = .ok a) : Keeps read d a where
  exact := exact
  back := fun depth enough => by
    cases depth with
    | zero => exact absurd d.depth_pos (Nat.not_lt.mpr enough)
    | succ depth => exact step depth enough

theorem exact_list {α : Type} {encode : α → Data} {read : Nat → Data → Read α} {values : List α}
    (each : ∀ a ∈ values, Keeps read (encode a) a) : (Data.list (values.map encode)).Exact :=
  .list (List.forall_mem_map.mpr fun a member => (each a member).exact)

/-- A list is kept where its items are. -/
theorem readList_keeps {α : Type} {encode : α → Data} {read : Nat → Data → Read α} {values : List α} {depth : Nat}
    (enough : (Data.list (values.map encode)).depth ≤ depth) (each : ∀ a ∈ values, Keeps read (encode a) a) :
    readList (read depth) (.list (values.map encode)) = .ok values :=
  readList_map fun a member =>
    (each a member).back depth (depth_items enough (encode a) (List.mem_map_of_mem member))

end Data

section Literals

theorem JoinKind.decode_keyword (kind : JoinKind) : JoinKind.decode json (.str kind.keyword) = .ok kind := by
  cases kind <;> rfl

theorem BinaryOp.decode_keyword (op : BinaryOp) : BinaryOp.decode json (.str op.keyword) = .ok op := by
  cases op <;> rfl

def Literal.isExact : Literal → Bool
  | .float _ => false
  | _ => true

theorem Literal.exact_encode {value : Literal} (plain : value.isExact = true) : value.encode.Exact := by
  cases value with
  | null => exact .str _
  | bool b => exact .variant (.bool b)
  | int n =>
    have low := n.le_toInt
    have high := n.toInt_lt
    refine .variant (.int ?_ ?_)
    · exact low
    · have below : ((2 ^ 63 : Nat) : Int) < (UInt64.size : Nat) := by decide
      omega
  | float x => cases plain
  | str s => exact .variant (.str s)

theorem Literal.decode_encode {value : Literal} (plain : value.isExact = true) :
    Literal.decode json value.encode = .ok value := by
  cases value with
  | null => rfl
  | bool b => rfl
  | int n =>
    have inside : (Int64.minValue.toInt ≤ n.toInt && n.toInt ≤ Int64.maxValue.toInt) = true := by
      rw [Bool.and_eq_true, decide_eq_true_eq, decide_eq_true_eq]
      exact ⟨n.minValue_le_toInt, n.toInt_le⟩
    change Literal.int <$> readInt64 (.int n.toInt) = _
    simp only [readInt64]
    rw [if_pos inside, Int64.ofInt_toInt]
    rfl
  | float x => cases plain
  | str s => rfl

end Literals

section Tables

theorem Data.readWord_ofNat {n : Nat} (fits : n < UInt64.size) : (ofNat n).readWord = .ok n := by
  have inside : (0 ≤ (n : Int) && (n : Int) < (UInt64.size : Nat)) = true := by
    rw [Bool.and_eq_true, decide_eq_true_eq, decide_eq_true_eq]
    omega
  simp only [readWord, ofNat, readNatBelow]
  rw [if_pos inside]
  rfl

theorem TableName.exact_encode (name : TableName) : name.encode.Exact := by
  refine .record ?_
  simp [Exact.str]

theorem TableName.decode_encode (name : TableName) : TableName.decode name.encode = .ok name := by
  have fields := readFields_record ["schema", "table"]
    [("schema", .str name.schema), ("table", .str name.table)] rfl (by decide)
  simp [TableName.decode, TableName.encode, fields, Fields.required_cons, readText, ok_bind,
    pure, Except.pure]

theorem BaseTable.exact_encode (t : BaseTable) : t.encode.Exact := by
  refine .record ?_
  simp [Exact.str, Exact.ofOption]

theorem BaseTable.decode_encode (t : BaseTable) : BaseTable.decode t.encode = .ok t := by
  have fields := readFields_record ["schema", "table", "alias"]
    [("schema", .str t.schema), ("table", .str t.table), ("alias", ofOption .str t.asName)]
    rfl (by decide)
  simp [BaseTable.decode, BaseTable.encode, fields, Fields.required_cons, Fields.optional_cons, readText,
    readOption_str, ok_bind, pure, Except.pure]

theorem PlaceholderRef.exact_encode {ref : PlaceholderRef} (fits : ref.node.index < UInt64.size) :
    ref.encode.Exact := by
  refine .record ?_
  simp [Exact.str, TableName.exact_encode, NodeId.encode, Exact.word fits]

theorem NodeId.decode_encode {id : NodeId} (fits : id.index < UInt64.size) : NodeId.decode id.encode = .ok id := by
  rw [NodeId.decode, NodeId.encode, readWord_ofNat fits, map_ok]

theorem PlaceholderRef.decode_encode {ref : PlaceholderRef} (fits : ref.node.index < UInt64.size) :
    PlaceholderRef.decode ref.encode = .ok ref := by
  have fields := readFields_record ["node", "table", "alias"]
    [("node", ref.node.encode), ("table", ref.table.encode), ("alias", .str ref.asName)]
    rfl (by decide)
  rw [PlaceholderRef.decode, PlaceholderRef.encode, fields, ok_bind]
  simp only [Fields.required_cons, if_true, NodeId.decode_encode fits, ok_bind]
  simp [TableName.decode_encode, readText, ok_bind, pure, Except.pure]

end Tables

mutual

/-- There is no float literal; queries in slots are not entered. -/
def Expr.isExact : Expr → Bool
  | .literal value => value.isExact
  | .func _ args _ => Expr.areExact args
  | .binary _ left right => left.isExact && right.isExact
  | .not operand => operand.isExact
  | .isNull operand _ => operand.isExact
  | .inSubquery operand _ _ => operand.isExact
  | _ => true

def Expr.areExact : List Expr → Bool
  | [] => true
  | e :: rest => e.isExact && Expr.areExact rest

end

section Expressions

theorem Expr.areExact_eq (es : List Expr) : areExact es = es.all isExact := by
  induction es with
  | nil => rfl
  | cons e rest ih => rw [areExact, ih, List.all_cons]

theorem Expr.encodeAll_eq (es : List Expr) : encodeAll es = es.map encode := by
  induction es with
  | nil => rfl
  | cons e rest ih => rw [encodeAll, ih, List.map_cons]

/-- An expression is kept where the queries in its slots are. -/
theorem Expr.keeps {e : Expr} (plain : e.isExact = true)
    (slots : ∀ slot ∈ e.slots, Keeps (Query.decodeWithin json) slot.2.encode slot.2) :
    Keeps (Expr.decodeWithin json) e.encode e := by
  revert plain slots
  refine ExprRule.expr (E := fun e => e.isExact = true →
    (∀ slot ∈ e.slots, Keeps (Query.decodeWithin json) slot.2.encode slot.2) →
    Keeps (Expr.decodeWithin json) e.encode e) ?_ e
  constructor
  case column =>
    intro table name _ _
    refine .of_step (.variant (.record ?_)) fun depth _ => ?_
    · simp [Exact.str, Exact.ofOption]
    · have fields := readVariantFields_record ["table", "name"]
        [("table", ofOption .str table), ("name", .str name)] rfl (by decide)
      simp [encode, decodeWithin, Data.variant, readVariant, readContent, fields, Fields.optional_cons,
        Fields.required_cons, readText, readOption_str, ok_bind, pure, Except.pure]
  case literal =>
    intro value plain _
    refine .of_step (.variant (Literal.exact_encode plain)) fun depth _ => ?_
    simp [encode, decodeWithin, Data.variant, readVariant, readContent, Literal.decode_encode plain, ok_bind]
  case star =>
    intro table _ _
    refine .of_step (.variant (.record ?_)) fun depth _ => ?_
    · simp [Exact.str, Exact.ofOption]
    · have fields := readVariantFields_record ["table"] [("table", ofOption .str table)] rfl (by decide)
      simp [encode, decodeWithin, Data.variant, readVariant, readContent, fields, Fields.optional_cons,
        readOption_str, ok_bind, pure, Except.pure]
  case func =>
    intro name args distinct ih plain slots
    rw [isExact, areExact_eq, List.all_eq_true] at plain
    rw [Expr.slots, slotsIn_eq] at slots
    have each (e) (member : e ∈ args) : Keeps (Expr.decodeWithin json) e.encode e :=
      ih e member (plain e member) fun slot own => slots slot (List.mem_flatMap.mpr ⟨e, member, own⟩)
    rw [encode, encodeAll_eq]
    refine .of_step (.variant (.record ?_)) fun depth enough => ?_
    · simp [Exact.str, Exact.bool, exact_list each]
    · have fields := readVariantFields_record ["name", "args", "distinct"]
        [("name", .str name), ("args", .list (args.map encode)), ("distinct", .bool distinct)]
        rfl (by decide)
      have room := depth_field enough ("args", .list (args.map encode)) (by simp)
      have read := readList_keeps room each
      simp [decodeWithin, Data.variant, readVariant, readContent, fields, Fields.required_cons,
        Fields.withDefault_cons, readText, readBool, read, ok_bind, pure, Except.pure]
  case binary =>
    intro op left right ihLeft ihRight plain slots
    rw [isExact, Bool.and_eq_true] at plain
    have keptLeft := ihLeft plain.1 fun slot own => slots slot (List.mem_append_left _ own)
    have keptRight := ihRight plain.2 fun slot own => slots slot (List.mem_append_right _ own)
    refine .of_step (.variant (.record ?_)) fun depth enough => ?_
    · simp [Exact.str, keptLeft.exact, keptRight.exact]
    · have room := depth_field enough
      have fields := readVariantFields_record ["op", "left", "right"]
        [("op", .str op.keyword), ("left", left.encode), ("right", right.encode)] rfl (by decide)
      have readLeft := keptLeft.back depth (room ("left", _) (by simp))
      have readRight := keptRight.back depth (room ("right", _) (by simp))
      simp [encode, decodeWithin, Data.variant, readVariant, readContent, fields, Fields.required_cons,
        BinaryOp.decode_keyword, readLeft, readRight, ok_bind, pure, Except.pure]
  case not =>
    intro operand ih plain slots
    have kept := ih plain slots
    refine .of_step (.variant kept.exact) fun depth enough => ?_
    simp [encode, decodeWithin, Data.variant, readVariant, readContent, kept.back depth (depth_content enough),
      ok_bind]
  case isNull =>
    intro operand negated ih plain slots
    have kept := ih plain slots
    refine .of_step (.variant (.record ?_)) fun depth enough => ?_
    · simp [Exact.bool, kept.exact]
    · have fields := readVariantFields_record ["expr", "negated"]
        [("expr", operand.encode), ("negated", .bool negated)] rfl (by decide)
      have read := kept.back depth (depth_field enough ("expr", operand.encode) (by simp))
      simp [encode, decodeWithin, Data.variant, readVariant, readContent, fields, Fields.required_cons,
        Fields.withDefault_cons, readBool, read, ok_bind, pure, Except.pure]
  case subquery =>
    intro query _ slots
    have kept := slots (.scalar, query) (by simp [Expr.slots])
    refine .of_step (.variant kept.exact) fun depth enough => ?_
    simp [encode, decodeWithin, Data.variant, readVariant, readContent, kept.back depth (depth_content enough),
      ok_bind]
  case inSubquery =>
    intro operand query negated ih plain slots
    have kept := ih plain fun slot own => slots slot (List.mem_append_left _ own)
    have held := slots (.membership, query) (by simp [Expr.slots])
    refine .of_step (.variant (.record ?_)) fun depth enough => ?_
    · simp [Exact.bool, kept.exact, held.exact]
    · have fields := readVariantFields_record ["expr", "subquery", "negated"]
        [("expr", operand.encode), ("subquery", query.encode), ("negated", .bool negated)]
        rfl (by decide)
      have read := kept.back depth (depth_field enough ("expr", operand.encode) (by simp))
      have readQuery := held.back depth (depth_field enough ("subquery", query.encode) (by simp))
      simp [encode, decodeWithin, Data.variant, readVariant, readContent, fields, Fields.required_cons,
        Fields.withDefault_cons, readBool, read, readQuery, ok_bind, pure, Except.pure]
  case existsSubquery =>
    intro query negated _ slots
    have held := slots (.existence, query) (by simp [Expr.slots])
    refine .of_step (.variant (.record ?_)) fun depth enough => ?_
    · simp [Exact.bool, held.exact]
    · have fields := readVariantFields_record ["subquery", "negated"]
        [("subquery", query.encode), ("negated", .bool negated)] rfl (by decide)
      have read := held.back depth (depth_field enough ("subquery", query.encode) (by simp))
      simp [encode, decodeWithin, Data.variant, readVariant, readContent, fields, Fields.required_cons,
        Fields.withDefault_cons, readBool, read, ok_bind, pure, Except.pure]

end Expressions

/-- No literal of the query is a float, at any level, and the numbers of nodes are words of 64 bits. -/
def Query.IsExact (q : Query) : Prop := ∀ level ∈ q.levels,
  (∀ e ∈ level.exprs ++ level.joinConditions, e.isExact = true)
    ∧ ∀ ref ∈ level.directPlaceholders, ref.node.index < UInt64.size

/-- The same of an item and of all that it holds. -/
structure FromItem.IsExact (item : FromItem) : Prop where
  conditions : ∀ e ∈ item.joinConditions, e.isExact = true
  refs : ∀ ref ∈ item.directPlaceholders, ref.node.index < UInt64.size
  listed : ∀ sub ∈ item.listed, sub.IsExact

section Levels

variable {q sub : Query}

theorem Query.IsExact.below (plain : q.IsExact) (held : sub ∈ q.listed ∨ sub ∈ q.slotted) : sub.IsExact :=
  fun level below => plain level (mem_levels.mpr (.inr ⟨sub, held, below⟩))

theorem Query.IsExact.item (plain : q.IsExact) {item : FromItem} (member : item ∈ q.fromList) : item.IsExact := by
  obtain ⟨exprs, refs⟩ := plain q q.self_mem_levels
  constructor
  case conditions =>
    intro e own
    exact exprs e (List.mem_append_right _ (List.mem_flatMap_of_mem member own))
  case refs => exact fun ref own => refs ref (List.mem_flatMap_of_mem member own)
  case listed => exact fun sub own => plain.below (.inl (List.mem_flatMap_of_mem member own))

namespace FromItem.IsExact

variable {a b : FromItem} {kind : JoinKind} {on : Option Expr}

theorem left (plain : (FromItem.join a b kind on).IsExact) : a.IsExact where
  conditions := fun e own => plain.conditions e (List.mem_append_left _ (List.mem_append_left _ own))
  refs := fun ref own => plain.refs ref (List.mem_append_left _ own)
  listed := fun sub own => plain.listed sub (mem_listed_join.mpr (.inl own))

theorem right (plain : (FromItem.join a b kind on).IsExact) : b.IsExact where
  conditions := fun e own => plain.conditions e (List.mem_append_left _ (List.mem_append_right _ own))
  refs := fun ref own => plain.refs ref (List.mem_append_right _ own)
  listed := fun sub own => plain.listed sub (mem_listed_join.mpr (.inr (.inl own)))

theorem condition (plain : (FromItem.join a b kind on).IsExact) {e : Expr} (own : e ∈ on) :
    e.isExact = true :=
  plain.conditions e (List.mem_append_right _ (Option.mem_toList.mpr own))

end FromItem.IsExact

/-- An output column as data. -/
def SelectItem.encode (item : SelectItem) : Data :=
  .record [("expr", item.expr.encode), ("alias", ofOption .str item.asName)]

/-- A sort key as data. -/
def OrderItem.encode (item : OrderItem) : Data :=
  .record [("expr", item.expr.encode), ("descending", .bool item.descending)]

theorem SelectItem.encodeAll_eq (items : List SelectItem) : encodeAll items = items.map encode := by
  induction items with
  | nil => rfl
  | cons item rest ih =>
    rcases item with ⟨e, asName⟩
    rw [encodeAll, ih, List.map_cons, encode]

theorem OrderItem.encodeAll_eq (items : List OrderItem) : encodeAll items = items.map encode := by
  induction items with
  | nil => rfl
  | cons item rest ih =>
    rcases item with ⟨e, descending⟩
    rw [encodeAll, ih, List.map_cons, encode]

theorem FromItem.encodeAll_eq (items : List FromItem) : encodeAll items = items.map encode := by
  induction items with
  | nil => rfl
  | cons item rest ih => rw [encodeAll, ih, List.map_cons]

theorem SelectItem.keeps {item : SelectItem} (kept : Keeps (Expr.decodeWithin json) item.expr.encode item.expr) :
    Keeps (SelectItem.decodeWithin json) item.encode item := by
  rcases item with ⟨e, asName⟩
  refine .of_step (.record ?_) fun depth enough => ?_
  · simp [Exact.str, Exact.ofOption, kept.exact]
  · have fields := readFields_record ["expr", "alias"]
      [("expr", e.encode), ("alias", ofOption .str asName)] rfl (by decide)
    have read := kept.back depth (depth_record enough ("expr", e.encode) (by simp))
    simp [encode, decodeWithin, fields, Fields.required_cons, Fields.optional_cons, readOption_str, read,
      ok_bind, pure, Except.pure]

theorem OrderItem.keeps {item : OrderItem} (kept : Keeps (Expr.decodeWithin json) item.expr.encode item.expr) :
    Keeps (OrderItem.decodeWithin json) item.encode item := by
  rcases item with ⟨e, descending⟩
  refine .of_step (.record ?_) fun depth enough => ?_
  · simp [Exact.bool, kept.exact]
  · have fields := readFields_record ["expr", "descending"]
      [("expr", e.encode), ("descending", .bool descending)] rfl (by decide)
    have read := kept.back depth (depth_record enough ("expr", e.encode) (by simp))
    simp [encode, decodeWithin, fields, Fields.required_cons, Fields.withDefault_cons, readBool, read,
      ok_bind, pure, Except.pure]

theorem Expr.isAbsent_encode (e : Expr) : e.encode.isAbsent = .ok false := by
  cases e <;> rfl

/-- An optional expression is kept as expressions are. -/
theorem readOption_expr {clause : Option Expr} {depth : Nat} (enough : (ofOption Expr.encode clause).depth ≤ depth)
    (each : ∀ e ∈ clause, Keeps (Expr.decodeWithin json) e.encode e) :
    readOption (Expr.decodeWithin json depth) (ofOption Expr.encode clause) = .ok clause := by
  refine readOption_ofOption fun e own => ⟨e.isAbsent_encode, (each e own).back depth ?_⟩
  cases own
  exact enough

/-- The limit is a word. -/
theorem readOption_limit (limit : Option UInt64) :
    readOption (fun d => UInt64.ofNat <$> d.readWord) (ofOption (fun n : UInt64 => ofNat n.toNat) limit)
      = .ok limit := by
  refine readOption_ofOption fun n _ => ⟨rfl, ?_⟩
  rw [readWord_ofNat n.toNat_lt, map_ok, UInt64.ofNat_toNat]

theorem FromItem.encode_join (left right : FromItem) (kind : JoinKind) (on : Option Expr) :
    (FromItem.join left right kind on).encode = variant "join" (.record [("left", left.encode),
      ("right", right.encode), ("kind", .str kind.keyword), ("on", ofOption Expr.encode on)]) := by
  cases on <;> rfl

theorem Query.encode_eq (q : Query) : q.encode
    = .record [("select_list", .list (q.selectList.map SelectItem.encode)),
      ("from_list", .list (q.fromList.map FromItem.encode)),
      ("filter", ofOption Expr.encode q.filter),
      ("group_by", .list (q.groupBy.map Expr.encode)),
      ("having", ofOption Expr.encode q.having),
      ("order_by", .list (q.orderBy.map OrderItem.encode)),
      ("limit", ofOption (fun n => ofNat n.toNat) q.limit),
      ("alias", ofOption .str q.asName)] := by
  rcases q with ⟨selectList, fromList, filter, groupBy, having, orderBy, limit, asName⟩
  rw [encode.eq_def, ← SelectItem.encodeAll_eq, ← FromItem.encodeAll_eq, ← Expr.encodeAll_eq,
    ← OrderItem.encodeAll_eq]
  cases filter <;> cases having <;> rfl

/-- A level is kept where its items and its expressions are. -/
theorem Query.keeps_level (items : ∀ item ∈ q.fromList, Keeps (FromItem.decodeWithin json) item.encode item)
    (exprs : ∀ e ∈ q.exprs, Keeps (Expr.decodeWithin json) e.encode e) :
    Keeps (Query.decodeWithin json) q.encode q := by
  obtain ⟨selected, filtered, grouped, had, sorted⟩ := forall_mem_exprs.mp exprs
  have columns (item) (member : item ∈ q.selectList) : Keeps (SelectItem.decodeWithin json) item.encode item :=
    SelectItem.keeps (selected item member)
  have keys (item) (member : item ∈ q.orderBy) : Keeps (OrderItem.decodeWithin json) item.encode item :=
    OrderItem.keeps (sorted item member)
  rw [encode_eq]
  refine .of_step (.record ?_) fun depth enough => ?_
  · have condition {clause : Option Expr} (each : ∀ e ∈ clause, Keeps (Expr.decodeWithin json) e.encode e) :
        (ofOption Expr.encode clause).Exact := .ofOption fun e own => (each e own).exact
    have limit : (ofOption (fun n : UInt64 => ofNat n.toNat) q.limit).Exact :=
      .ofOption fun n _ => .word n.toNat_lt
    simp [exact_list columns, exact_list items, condition filtered, exact_list grouped, condition had,
      exact_list keys, limit, Exact.str, Exact.ofOption]
  · have room := depth_record enough
    simp only [List.forall_mem_cons] at room
    obtain ⟨selectRoom, fromRoom, filterRoom, groupRoom, havingRoom, orderRoom, _⟩ := room
    have fields := readFields_record ["select_list", "from_list", "filter", "group_by", "having",
        "order_by", "limit", "alias"]
      [("select_list", .list (q.selectList.map SelectItem.encode)),
        ("from_list", .list (q.fromList.map FromItem.encode)),
        ("filter", ofOption Expr.encode q.filter),
        ("group_by", .list (q.groupBy.map Expr.encode)),
        ("having", ofOption Expr.encode q.having),
        ("order_by", .list (q.orderBy.map OrderItem.encode)),
        ("limit", ofOption (fun n => ofNat n.toNat) q.limit),
        ("alias", ofOption .str q.asName)] rfl (by decide)
    rw [decodeWithin, fields, ok_bind]
    simp only [Fields.required_cons, Fields.optional_cons, Fields.withDefault_cons, String.reduceEq, if_true,
      if_false, readList_keeps selectRoom columns, readList_keeps fromRoom items,
      readOption_expr filterRoom filtered, readList_keeps groupRoom grouped, readOption_expr havingRoom had,
      readList_keeps orderRoom keys, readOption_limit, readOption_str, ok_bind]
    cases q
    rfl

/-- Every exact query is kept, at whatever level. -/
theorem Query.keeps (plain : q.IsExact) : Keeps (Query.decodeWithin json) q.encode q := by
  revert plain
  have rule : LevelRule (fun q => q.IsExact → Keeps (Query.decodeWithin json) q.encode q)
      fun item => item.IsExact → Keeps (FromItem.decodeWithin json) item.encode item := by
    constructor
    case level =>
      intro q items slots plain
      refine q.keeps_level (fun item member => items item member (plain.item member)) fun e own => ?_
      refine Expr.keeps ((plain q q.self_mem_levels).1 e (List.mem_append_left _ own)) fun slot member => ?_
      exact slots e own slot member (plain.below (.inr (mem_slotted.mpr ⟨e, own, slot, member, rfl⟩)))
    case table =>
      intro t _
      refine .of_step (.variant t.exact_encode) fun depth _ => ?_
      simp [FromItem.encode, FromItem.decodeWithin, variant, readVariant, readContent, t.decode_encode, ok_bind]
    case derived =>
      intro q ih plain
      have kept := ih (plain.listed q List.mem_cons_self)
      refine .of_step (.variant kept.exact) fun depth enough => ?_
      simp [FromItem.encode, FromItem.decodeWithin, variant, readVariant, readContent,
        kept.back depth (depth_content enough), ok_bind]
    case join =>
      intro left right kind on ihLeft ihRight slots plain
      have keptLeft := ihLeft plain.left
      have keptRight := ihRight plain.right
      have condition (e) (own : e ∈ on) : Keeps (Expr.decodeWithin json) e.encode e := by
        refine Expr.keeps (plain.condition own) fun slot member => ?_
        exact slots e own slot member (plain.listed slot.2
          (FromItem.mem_listed_join.mpr (.inr (.inr ⟨e, own, slot, member, rfl⟩))))
      rw [FromItem.encode_join]
      refine .of_step (.variant (.record ?_)) fun depth enough => ?_
      · have exact : (ofOption Expr.encode on).Exact := .ofOption fun e own => (condition e own).exact
        simp [keptLeft.exact, keptRight.exact, exact, Exact.str]
      · have fields := readFields_record ["left", "right", "kind", "on"]
          [("left", left.encode), ("right", right.encode), ("kind", .str kind.keyword),
            ("on", ofOption Expr.encode on)] rfl (by decide)
        have readLeft := keptLeft.back depth (depth_field enough ("left", left.encode) (by simp))
        have readRight := keptRight.back depth (depth_field enough ("right", right.encode) (by simp))
        have readOn := readOption_expr (depth_field enough ("on", ofOption Expr.encode on) (by simp)) condition
        simp [FromItem.decodeWithin, variant, readVariant, readContent, fields, Fields.required_cons,
          Fields.optional_cons, JoinKind.decode_keyword, readLeft, readRight, readOn, ok_bind, pure, Except.pure]
    case placeholder =>
      intro ref plain
      have fits := plain.refs ref List.mem_cons_self
      refine .of_step (.variant (PlaceholderRef.exact_encode fits)) fun depth _ => ?_
      have read (content : Data) : FromItem.decodeWithin json (depth + 1) (variant "placeholder" content)
          = .placeholder <$> PlaceholderRef.decode content := rfl
      rw [FromItem.encode, read, PlaceholderRef.decode_encode fits, map_ok]
  exact rule.query q

end Levels

/-- Canonical text is faithful: from the text of an exact query that nests no deeper than the reader allows,
the query is read back, and exact queries with the same text are equal. -/
theorem Query.text_faithful {q : Query} (plain : q.IsExact) :
    (q.encode.nesting ≤ Json.depthLimit →
      ∃ d, Json.parse (Json.text q.encode) = .ok d ∧ Query.decode json d = .ok q)
    ∧ ∀ r : Query, r.IsExact → Json.text r.encode = Json.text q.encode → r = q := by
  have kept := Query.keeps plain
  have own : Query.decode json q.encode = .ok q := kept.back _ (Nat.le_refl _)
  constructor
  · exact fun shallow => ⟨q.encode, Json.parse_text kept.exact shallow, own⟩
  · intro r plain' same
    have kept' := Query.keeps plain'
    have other : Query.decode json r.encode = .ok r := kept'.back _ (Nat.le_refl _)
    rw [Json.text_injective kept'.exact kept.exact same, own] at other
    cases other
    rfl

section Sample

/-- A table joined to a stored result, with a null, the least integer, the greatest identifier of a node, an
escaped string and an aliased sub-query. -/
def Query.corners : Query :=
  let inner : Query := ⟨[⟨.literal .null, none⟩], [], none, [], none, [], none, some "x"⟩
  let condition : Expr := .binary .eq (.column (some "t") "c") (.literal (.str "\\ \x22 \x07"))
  ⟨[⟨.literal (.int Int64.minValue), some "least"⟩],
    [.join (.table ⟨"s", "t", none⟩) (.placeholder ⟨⟨18446744073709551615⟩, ⟨"scratch", "d"⟩, "d"⟩) .left
      (some condition)],
    some (.existsSubquery inner true), [], none, [⟨.star none, true⟩], some 0, none⟩

theorem Query.corners_faithful : corners.IsExact ∧ corners.encode.nesting ≤ Json.depthLimit
    ∧ ∃ d, Json.parse (Json.text corners.encode) = .ok d ∧ Query.decode json d = .ok corners := by
  have plain : corners.IsExact := by
    unfold IsExact
    decide
  have shallow : corners.encode.nesting ≤ Json.depthLimit := by decide
  exact ⟨plain, shallow, (text_faithful plain).1 shallow⟩

end Sample

end ApproxQuery
