import Laurus.Vector.Model.HnswGraph

/-!
# What the graph loaders accept

Each loader recognises a layout (`GraphBlock.spell_v1`, `spell_v2`): it
accepts the blocks that spell one in full, and returns what they spell.
The counts are met on both sides: a spelled count always passes its
check, and a reservation is made only for a count that has passed.
-/

namespace Laurus

section HnswGraph

open Comp StorageInput

/-! ## The input -/

namespace StorageInput

theorem length_rest (input : StorageInput) : input.rest.length = input.remaining := by
  simp [rest, remaining]

instance : Input StorageInput UInt8 where
  rest := rest
  advance := advance
  advance_nil := by intro input; simp [advance]
  advance_append := by intro input bs cs; simp [advance, Nat.add_assoc]
  rest_advance := by
    grind [rest, advance, List.drop_drop, List.drop_left]

@[simp] theorem input_rest (input : StorageInput) : Input.rest input = input.rest := rfl

end StorageInput

/-! ## Words and checks -/

section Recognisers

variable {room : ℕ}

theorem recognises_exact (length : ℕ) :
    Recognises room (read_exact length) fun value bs => value = bs ∧ bs.length = length := by
  constructor
  · intro input value input' hrun
    simp only [read_exact, bind_apply, get_apply] at hrun
    split at hrun
    · rename_i hfits
      obtain ⟨rfl, rfl⟩ := hrun
      refine ⟨_, input.rest.drop length, (List.take_append_drop _ _).symm, rfl, rfl, ?_⟩
      rw [input_rest, List.length_take, length_rest]
      omega
    · rw [throw_apply] at hrun
      cases hrun
  · rintro bs _ ⟨rfl, rfl⟩ _ input t hs
    have hs' : input.rest = bs ++ t := hs
    have hfits : bs.length ≤ input.remaining := by
      rw [← length_rest, hs', List.length_append]
      omega
    simp only [read_exact, bind_apply, get_apply, if_pos hfits]
    rw [hs', List.take_left]
    rfl

theorem recognises_le (width : ℕ) :
    Recognises room (read_le width) fun value bs =>
      value < 256 ^ width ∧ bs = Bytes.ofNatLE width value := by
  refine ((recognises_exact width).bind fun bytes _ _ =>
    Recognises.pure (Bytes.toNatLE bytes)).congr fun value bs => ?_
  constructor
  · rintro ⟨bytes, _, _, rfl, ⟨rfl, rfl⟩, rfl, rfl⟩
    rw [List.append_nil]
    exact ⟨Bytes.toNatLE_lt _, (Bytes.ofNatLE_toNatLE _).symm⟩
  · rintro ⟨hvalue, rfl⟩
    exact ⟨_, _, [], (List.append_nil _).symm, ⟨rfl, Bytes.length_ofNatLE _ _⟩,
      (Bytes.toNatLE_ofNatLE hvalue).symm, rfl⟩

variable {count min_stride : ℕ} {what : String} {α : Type} {ids : List ℕ}

theorem bounded_ok {available : ℕ} {input : StorageInput}
    (hfits : count * min_stride ≤ available) (hpos : 0 < min_stride) (hcount : count < 2 ^ 64)
    (hfile : count * min_stride ≤ input.file.length) :
    bounded count min_stride available what input = .ok ((), input) := by
  have hpass : checked_capacity_u64 count min_stride available what = .ok count := by
    rw [checked_capacity_u64_eq_ok, Nat.max_eq_left hpos]
    exact ⟨hfits, hcount, rfl⟩
  have hroom : ¬ input.file.length < count * min_stride := by omega
  unfold bounded reserve
  rw [hpass]
  simp only [GraphRead.liftE, bind_apply, pure_apply, get_apply, if_neg hroom]

theorem bounded_keeps {available : ℕ} {input input' : StorageInput}
    (h : bounded count min_stride available what input = .ok ((), input')) : input' = input := by
  unfold bounded reserve at h
  rcases hcheck : checked_capacity_u64 count min_stride available what with e | n
  · rw [hcheck] at h
    cases h
  · rw [hcheck] at h
    simp only [GraphRead.liftE, pure_apply, bind_apply, get_apply] at h
    split at h
    · cases h
    · cases h
      rfl

theorem recognises_bounded {β : Type} {p : GraphRead β}
    {T : β → Bytes → Prop} (hpos : 0 < min_stride) (hcount : count < 2 ^ 64)
    (hlen : ∀ b bs, T b bs → count * min_stride ≤ bs.length) (hp : Recognises room p T) :
    Recognises room (bounded count min_stride room what >>= fun _ => p) T := by
  refine @Recognises.check _ _ _ _ _ _ room _ _ () T ?_ ?_ hp
  · intro input _ input' h
    exact ⟨rfl, bounded_keeps h⟩
  · intro input t b bs hb hroom hs
    have hrest : bs.length ≤ input.rest.length := by
      rw [show input.rest = bs ++ t from hs, List.length_append]
      omega
    grind [length_rest, remaining, bounded_ok]

/-! ## CountedList lists -/

/-- A count of 32 bits and its items. -/
def counted {α : Type} (spell : α → Bytes) (items : List α) : Bytes :=
  u32_le items.length ++ items.flatMap spell

/-- The items can be counted in 32 bits, and each is fine. -/
def CountedList {α : Type} (ok : α → Prop) (items : List α) : Prop :=
  items.length < 2 ^ 32 ∧ ∀ item ∈ items, ok item

theorem length_flatMap_ge {spell : α → Bytes} {least : ℕ}
    (h : ∀ a, least ≤ (spell a).length) (items : List α) :
    items.length * least ≤ (items.flatMap spell).length := by
  induction items with
  | nil => simp
  | cons a items ih =>
      have ha := h a
      rw [List.flatMap_cons, List.length_append, List.length_cons, Nat.succ_mul]
      omega

/-- **A counted loop recognises counted lists**, when each item takes at
least the bytes its count is checked with. -/
theorem recognises_counted {ok : α → Prop} {spell : α → Bytes} {p : GraphRead α} (hpos : 0 < min_stride)
    (hspell : ∀ a, min_stride ≤ (spell a).length)
    (hp : Recognises room p fun a bs => ok a ∧ bs = spell a) :
    Recognises room (do
      let count ← read_le 4
      bounded count min_stride room what
      times count p) fun items bs => CountedList ok items ∧ bs = counted spell items := by
  have hloop : ∀ count l, count < 256 ^ 4 ∧ l = Bytes.ofNatLE 4 count →
      Recognises room (bounded count min_stride room what >>= fun _ => times count p)
        fun items bs => (items.length = count ∧ ∀ item ∈ items, ok item) ∧
          bs = items.flatMap spell := by
    rintro count _ ⟨hcount, -⟩
    refine recognises_bounded hpos (by omega) ?_ (hp.times count)
    rintro items _ ⟨⟨rfl, -⟩, rfl⟩
    exact length_flatMap_ge hspell items
  refine ((recognises_le 4).bind hloop).congr fun items bs => ?_
  constructor
  · rintro ⟨_, _, _, rfl, ⟨hcount, rfl⟩, ⟨rfl, hok⟩, rfl⟩
    exact ⟨⟨by omega, hok⟩, rfl⟩
  · rintro ⟨⟨hcount, hok⟩, rfl⟩
    exact ⟨items.length, _, _, rfl, ⟨by omega, rfl⟩, ⟨rfl, hok⟩, rfl⟩

theorem length_counted (spell : α → Bytes) (items : List α) :
    4 ≤ (counted spell items).length := by
  rw [counted, u32_le, List.length_append, Bytes.length_ofNatLE]
  omega

/-- A node's levels, when an id is spelled by `spell`. -/
def layers_bytes (spell : ℕ → Bytes) : Layers → Bytes := counted (counted spell)

/-- A node's levels can be counted, and each id in them has a name. -/
def Spelled (names : ℕ → Prop) : Layers → Prop := CountedList (CountedList names)

theorem recognises_layers {names : ℕ → Prop} {spell : ℕ → Bytes} {read_id : GraphRead ℕ}
    {stride : ℕ} (hpos : 0 < stride) (hspell : ∀ id, stride ≤ (spell id).length)
    (hid : Recognises room read_id fun id bs => names id ∧ bs = spell id) :
    Recognises room (read_layers read_id stride room) fun layers bs =>
      Spelled names layers ∧ bs = layers_bytes spell layers :=
  recognises_counted (by omega) (length_counted spell) (recognises_counted hpos hspell hid)

/-! ## The v1 block -/

/-- A v1 id. -/
def u64_le (value : ℕ) : Bytes := Bytes.ofNatLE 8 value

/-- A v1 node. -/
def node_v1 (node : ℕ × Layers) : Bytes := u64_le node.1 ++ layers_bytes u64_le node.2

/-- What a v1 block spells, in full. -/
def ParsedGraphBlock.spell_v1 (block : ParsedGraphBlock) : Bytes :=
  u64_le (block.entry_point.getD U64_MAX) ++ (u32_le block.max_level ++
    (u64_le block.nodes.length ++ block.nodes.flatMap node_v1))

/-- What a v1 block can spell: every number within its word. -/
structure ParsedGraphBlock.Valid_v1 (block : ParsedGraphBlock) : Prop where
  entry_point : ∀ id, block.entry_point = some id → id < U64_MAX
  max_level : block.max_level < 2 ^ 32
  node_count : block.nodes.length < 2 ^ 64
  nodes : ∀ node ∈ block.nodes, node.1 < 2 ^ 64 ∧ Spelled (· < 2 ^ 64) node.2

theorem recognises_id_v1 :
    Recognises room (read_le 8) fun id bs => id < 2 ^ 64 ∧ bs = u64_le id :=
  (recognises_le 8).congr fun id bs => by rw [u64_le, show 256 ^ 8 = 2 ^ 64 by decide]

theorem recognises_node_v1 :
    Recognises room (do
      let doc_id ← read_le 8
      let layers ← read_layers (read_le 8) 8 room
      return (doc_id, layers)) fun node bs =>
        (node.1 < 2 ^ 64 ∧ Spelled (· < 2 ^ 64) node.2) ∧ bs = node_v1 node := by
  have hlayers := @recognises_layers room _ _ _ _ (by omega : 0 < 8)
    (fun id => by rw [u64_le, Bytes.length_ofNatLE]) recognises_id_v1
  refine (recognises_id_v1.bind fun id _ _ => hlayers.bind fun layers _ _ =>
    Recognises.pure (id, layers)).congr fun node bs => ?_
  constructor
  · rintro ⟨id, _, _, rfl, ⟨hid, rfl⟩, layers, _, _, rfl, ⟨hlayers, rfl⟩, rfl, rfl⟩
    exact ⟨⟨hid, hlayers⟩, by rw [List.append_nil, node_v1]⟩
  · rintro ⟨⟨hid, hlayers⟩, rfl⟩
    exact ⟨node.1, _, _, rfl, ⟨hid, rfl⟩, node.2, _, [], (List.append_nil _).symm, ⟨hlayers, rfl⟩,
      rfl, rfl⟩

theorem length_node_v1 (node : ℕ × Layers) : 12 ≤ (node_v1 node).length := by
  have hlayers := length_counted (counted u64_le) node.2
  rw [node_v1, u64_le, List.length_append, Bytes.length_ofNatLE, layers_bytes]
  omega

theorem entry_v1_iff {entry : Option ℕ} {raw : ℕ} :
    (raw < 2 ^ 64 ∧ entry = if raw = U64_MAX then none else some raw) ↔
      (∀ id, entry = some id → id < U64_MAX) ∧ raw = entry.getD U64_MAX := by
  have hmax : U64_MAX + 1 = 2 ^ 64 := by decide
  constructor
  · grind
  · rintro ⟨hentry, rfl⟩
    rcases entry with _ | id
    · grind
    grind

theorem recognises_nodes_v1 (hcount : count < 2 ^ 64) :
    Recognises room (read_nodes_v1 count) fun nodes bs =>
      (nodes.length = count ∧ ∀ node ∈ nodes, node.1 < 2 ^ 64 ∧ Spelled (· < 2 ^ 64) node.2) ∧
        bs = nodes.flatMap node_v1 := by
  refine Recognises.get_bind fun input => ?_
  rw [input_rest, length_rest]
  refine recognises_bounded (by omega) hcount ?_ (recognises_node_v1.times count)
  rintro nodes _ ⟨⟨rfl, -⟩, rfl⟩
  exact length_flatMap_ge length_node_v1 nodes

/-- **The v1 loader accepts exactly the v1 layouts.** -/
theorem recognises_v1 : Recognises room load_graph_block_v1 fun block bs =>
    block.Valid_v1 ∧ bs = block.spell_v1 := by
  have hword : (256 : ℕ) ^ 8 = 2 ^ 64 := by decide
  have hlevel : (256 : ℕ) ^ 4 = 2 ^ 32 := by decide
  refine ((recognises_le 8).bind fun raw _ _ => (recognises_le 4).bind fun max_level _ _ =>
    (recognises_le 8).bind fun count _ hcount =>
    (recognises_nodes_v1 (by omega)).bind fun nodes _ _ => Recognises.pure _).congr
    fun block bs => ?_
  constructor
  · rintro ⟨raw, _, _, rfl, ⟨hraw, rfl⟩, max_level, _, _, rfl, ⟨hmax, rfl⟩, _, _, _, rfl,
      ⟨hcount, rfl⟩, nodes, _, _, rfl, ⟨⟨rfl, hnodes⟩, rfl⟩, rfl, rfl⟩
    obtain ⟨hentry, hget⟩ := entry_v1_iff.1 ⟨hraw, rfl⟩
    refine ⟨⟨hentry, hmax, hcount, hnodes⟩, ?_⟩
    rw [List.append_nil, ParsedGraphBlock.spell_v1, ← hget]
    rfl
  · rintro ⟨hvalid, rfl⟩
    obtain ⟨hraw, hentry⟩ := entry_v1_iff.2 ⟨hvalid.entry_point, rfl⟩
    refine ⟨_, _, _, rfl, ⟨by rwa [hword], rfl⟩, block.max_level, _, _, rfl,
      ⟨by rw [hlevel]; exact hvalid.max_level, rfl⟩, block.nodes.length, _, _, rfl,
      ⟨by rw [hword]; exact hvalid.node_count, rfl⟩, block.nodes, _, [],
      (List.append_nil _).symm, ⟨⟨rfl, hvalid.nodes⟩, rfl⟩, ?_, rfl⟩
    rw [← hentry]

/-! ## The v2 block -/

/-- A v2 id: its rank in the ordinal table. -/
def ordinal_le (ids : List ℕ) (doc_id : ℕ) : Bytes := u32_le (ids.idxOf doc_id)

/-- A v2 node; its id is its place. -/
def node_v2 (ids : List ℕ) (node : ℕ × Layers) : Bytes := layers_bytes (ordinal_le ids) node.2

/-- The word a v2 entry point is. -/
def entry_ord (ids : List ℕ) (entry : Option ℕ) : ℕ := (entry.map ids.idxOf).getD U32_MAX

/-- What a v2 block spells, in full. -/
def ParsedGraphBlock.spell_v2 (ids : List ℕ) (block : ParsedGraphBlock) : Bytes :=
  u32_le (entry_ord ids block.entry_point) ++ (u32_le block.max_level ++
    (u32_le block.nodes.length ++ block.nodes.flatMap (node_v2 ids)))

/-- What a v2 block can spell over an ordinal table: a node for each id, and
only the table's ids. -/
structure ParsedGraphBlock.Valid_v2 (ids : List ℕ) (block : ParsedGraphBlock) : Prop where
  entry_point : ∀ id, block.entry_point = some id → id ∈ ids
  max_level : block.max_level < 2 ^ 32
  node_count : ids.length < 2 ^ 32
  node_ids : block.nodes.map Prod.fst = ids
  nodes : ∀ node ∈ block.nodes, Spelled (· ∈ ids) node.2

theorem getElem?_eq_some_iff_idxOf (hnodup : ids.Nodup) {ord id : ℕ} :
    ids[ord]? = some id ↔ id ∈ ids ∧ ord = ids.idxOf id := by grind

theorem recognises_doc_of (ids : List ℕ) (ord : ℕ) :
    Recognises room (doc_of ids ord) fun id bs => ids[ord]? = some id ∧ bs = [] := by
  unfold doc_of
  rcases ids[ord]? with _ | doc_id
  · exact Recognises.fails (fun _ => ⟨_, rfl⟩) fun _ _ h => by cases h.1
  · exact (Recognises.pure doc_id).congr fun id bs => by grind

theorem recognises_ordinal (hnodup : ids.Nodup) (hlen : ids.length < 2 ^ 32) :
    Recognises room (read_ordinal ids) fun id bs => id ∈ ids ∧ bs = ordinal_le ids id := by
  refine ((recognises_le 4).bind fun ord _ _ => recognises_doc_of ids ord).congr fun id bs => ?_
  constructor
  · rintro ⟨ord, _, _, rfl, ⟨-, rfl⟩, hget, rfl⟩
    obtain ⟨hmem, rfl⟩ := (getElem?_eq_some_iff_idxOf hnodup).1 hget
    exact ⟨hmem, List.append_nil _⟩
  · rintro ⟨hmem, rfl⟩
    have hord := List.idxOf_lt_length_iff.2 hmem
    exact ⟨ids.idxOf id, _, [], (List.append_nil _).symm, ⟨by omega, rfl⟩,
      (getElem?_eq_some_iff_idxOf hnodup).2 ⟨hmem, rfl⟩, rfl⟩

theorem recognises_entry_v2 (ids : List ℕ) (raw : ℕ) :
    Recognises room (ordinal_entry ids raw) fun entry bs =>
      (if raw = U32_MAX then entry = none else ∃ id, ids[raw]? = some id ∧ entry = some id) ∧
        bs = [] := by
  unfold ordinal_entry
  split
  · exact Recognises.pure none
  · refine ((recognises_doc_of ids raw).bind fun id _ _ => Recognises.pure (some id)).congr
      fun entry bs => ?_
    constructor
    · rintro ⟨id, _, _, rfl, ⟨hget, rfl⟩, rfl, rfl⟩
      exact ⟨⟨id, hget, rfl⟩, rfl⟩
    · rintro ⟨⟨id, hget, rfl⟩, rfl⟩
      exact ⟨id, [], [], rfl, ⟨hget, rfl⟩, rfl, rfl⟩

theorem entry_v2_iff (hnodup : ids.Nodup) (hlen : ids.length < 2 ^ 32)
    {entry : Option ℕ} {raw : ℕ} :
    (raw < 2 ^ 32 ∧
        if raw = U32_MAX then entry = none else ∃ id, ids[raw]? = some id ∧ entry = some id) ↔
      (∀ id, entry = some id → id ∈ ids) ∧ raw = entry_ord ids entry := by
  have hmax : U32_MAX + 1 = 2 ^ 32 := by decide
  constructor
  · rintro ⟨hraw, hentry⟩
    split at hentry
    · rename_i heq
      subst hentry
      exact ⟨fun id h => (by cases h), heq⟩
    · obtain ⟨id, hget, rfl⟩ := hentry
      obtain ⟨hmem, rfl⟩ := (getElem?_eq_some_iff_idxOf hnodup).1 hget
      refine ⟨?_, rfl⟩
      rintro _ ⟨⟩
      exact hmem
  · rintro ⟨hentry, rfl⟩
    rcases entry with _ | id
    · rw [entry_ord, Option.map_none, Option.getD_none, if_pos rfl]
      exact ⟨by omega, rfl⟩
    · have hmem := hentry id rfl
      have hord := List.idxOf_lt_length_iff.2 hmem
      rw [entry_ord, Option.map_some, Option.getD_some, if_neg (by omega)]
      grind

theorem forall₂_node_ids {ok : Layers → Prop} {nodes : List (ℕ × Layers)} :
    List.Forall₂ (fun id node => node.1 = id ∧ ok node.2) ids nodes ↔
      nodes.map Prod.fst = ids ∧ ∀ node ∈ nodes, ok node.2 := by
  induction ids generalizing nodes with
  | nil =>
      rw [List.forall₂_nil_left_iff, List.map_eq_nil_iff, iff_self_and]
      grind
  | cons id ids ih =>
      rw [List.forall₂_cons_left_iff]
      constructor
      · grind
      · rintro ⟨hids, hnodes⟩
        obtain ⟨node, nodes, rfl, rfl, hrest⟩ := List.map_eq_cons_iff.1 hids
        grind

theorem recognises_nodes_v2 (hnodup : ids.Nodup) (hlen : ids.length < 2 ^ 32) :
    Recognises room (read_nodes_v2 ids ids.length) fun nodes bs =>
      (nodes.map Prod.fst = ids ∧ ∀ node ∈ nodes, Spelled (· ∈ ids) node.2) ∧
        bs = nodes.flatMap (node_v2 ids) := by
  refine Recognises.get_bind fun input => ?_
  rw [input_rest, length_rest]
  have hlayers := fun room => @recognises_layers room _ _ _ _ (by omega : 0 < 4)
    (fun id => by rw [ordinal_le, u32_le, Bytes.length_ofNatLE])
    (recognises_ordinal hnodup hlen)
  refine recognises_bounded (by omega) (by omega) ?_ ((Recognises.each (fun doc_id =>
    (hlayers _).bind fun layers _ _ => Recognises.pure (doc_id, layers)) ids).congr
      fun nodes bs => ?_)
  · rintro nodes _ ⟨⟨hids, -⟩, rfl⟩
    have hcount : ids.length = nodes.length := by rw [← hids, List.length_map]
    rw [hcount]
    exact length_flatMap_ge (fun node => length_counted (counted (ordinal_le ids)) node.2) nodes
  · rw [← forall₂_node_ids]
    refine each_spelled fun id node bs => ?_
    constructor
    · rintro ⟨layers, _, _, rfl, ⟨hlayers, rfl⟩, rfl, rfl⟩
      exact ⟨⟨rfl, hlayers⟩, List.append_nil _⟩
    · rintro ⟨⟨rfl, hlayers⟩, rfl⟩
      exact ⟨node.2, _, [], (List.append_nil _).symm, ⟨hlayers, rfl⟩, rfl, rfl⟩

/-- **The v2 loader accepts exactly the v2 layouts** over the records'
ordinal table. -/
theorem recognises_v2 {vectors : List ℕ} (hids : load_unique_ids none vectors = .ok ids)
    (hnodup : ids.Nodup) : Recognises room (load_graph_block_v2 vectors) fun block bs =>
      block.Valid_v2 ids ∧ bs = block.spell_v2 ids := by
  have hword : (256 : ℕ) ^ 4 = 2 ^ 32 := by decide
  have htail : ∀ (entry : Option ℕ) (max_level count : ℕ), count < 256 ^ 4 →
      Recognises room (do
        if count ≠ ids.length then
          throw (Fault.error (LaurusError.index
            (s!"HNSW v2 graph corrupt: node_count {count} does not match the segment's " ++
              s!"{ids.length} unique record doc ids")))
        let nodes ← read_nodes_v2 ids count
        return ({ entry_point := entry, max_level := max_level, nodes := nodes } :
          ParsedGraphBlock)) fun block bs =>
        count = ids.length ∧ (block.entry_point = entry ∧ block.max_level = max_level) ∧
          (block.nodes.map Prod.fst = ids ∧ ∀ node ∈ block.nodes, Spelled (· ∈ ids) node.2) ∧
          bs = block.nodes.flatMap (node_v2 ids) := by
    intro entry max_level count hcount
    refine Recognises.ite (fun hne => ?_) (fun heq => ?_)
    · exact Recognises.fails (fun _ => ⟨_, rfl⟩) fun _ _ h => hne h.1
    · obtain rfl := not_not.1 heq
      refine ((recognises_nodes_v2 hnodup (by omega)).bind fun nodes _ _ =>
        Recognises.pure _).congr fun block bs => ?_
      constructor
      · rintro ⟨nodes, _, _, rfl, ⟨hnodes, rfl⟩, rfl, rfl⟩
        grind
      · rintro ⟨-, ⟨rfl, rfl⟩, hnodes, rfl⟩
        exact ⟨block.nodes, _, [], (List.append_nil _).symm, ⟨hnodes, rfl⟩, rfl, rfl⟩
  unfold load_graph_block_v2
  rw [hids]
  refine ((recognises_le 4).bind fun raw _ _ => (recognises_entry_v2 ids raw).bind
    fun entry _ _ => (recognises_le 4).bind fun max_level _ _ => (recognises_le 4).bind
    fun count _ hcount => htail entry max_level count hcount.1).congr fun block bs => ?_
  constructor
  · rintro ⟨raw, _, _, rfl, ⟨hraw, rfl⟩, entry, _, _, rfl, ⟨hentry, rfl⟩, max_level, _, _, rfl,
      ⟨hmax, rfl⟩, _, _, _, rfl, ⟨hcount, rfl⟩, rfl, ⟨rfl, rfl⟩, hnodes, rfl⟩
    obtain ⟨hmem, hord⟩ := (entry_v2_iff hnodup hcount).1 ⟨hraw, hentry⟩
    refine ⟨⟨hmem, hmax, hcount, hnodes.1, hnodes.2⟩, ?_⟩
    rw [List.nil_append, ParsedGraphBlock.spell_v2, ← hord, ← hnodes.1, List.length_map]
    rfl
  · rintro ⟨hvalid, rfl⟩
    obtain ⟨hraw, hentry⟩ := (entry_v2_iff hnodup hvalid.node_count).2 ⟨hvalid.entry_point, rfl⟩
    have hlen : block.nodes.length = ids.length := by
      rw [← hvalid.node_ids, List.length_map]
    refine ⟨_, _, _, rfl, ⟨by rwa [hword], rfl⟩, block.entry_point, [], _,
      (List.nil_append _).symm, ⟨hentry, rfl⟩, block.max_level, _, _, rfl,
      ⟨by rw [hword]; exact hvalid.max_level, rfl⟩, ids.length, _, _, ?_,
      ⟨by rw [hword]; exact hvalid.node_count, rfl⟩, rfl, ⟨rfl, rfl⟩,
      ⟨hvalid.node_ids, hvalid.nodes⟩, rfl⟩
    rw [hlen]
    rfl

end Recognisers

/-! ## No crash -/

/-- A bound the capacity checks compare with is the file's. -/
def Within (available : ℕ) (input : StorageInput) : Prop := available ≤ input.file.length

section Safe

variable {available : ℕ}

theorem safe_exact (length : ℕ) :
    Triple Fault.IsCrash (Within available) (read_exact length) fun _ => Within available := by
  refine Triple.get_bind fun input hin => Triple.ite (fun _ => ?_) fun _ => Triple.throw id
  intro input' _
  refine ⟨fun value next h => ?_, fun e h => by cases h⟩
  cases h
  exact hin

theorem safe_le (width : ℕ) :
    Triple Fault.IsCrash (Within available) (read_le width) fun _ => Within available :=
  (safe_exact width).bind fun _ => Triple.pure fun _ h => h

theorem safe_liftE {α : Type} (x : Except LaurusError α) (P : StorageInput → Prop) :
    Triple Fault.IsCrash P (GraphRead.liftE x) fun a input => x = .ok a ∧ P input := by
  rcases x with e | a
  · exact Triple.throw id
  · exact Triple.pure fun _ h => ⟨rfl, h⟩

theorem safe_bounded {count min_stride : ℕ} (hpos : 0 < min_stride) (what : String) :
    Triple Fault.IsCrash (Within available) (bounded count min_stride available what)
      fun _ => Within available := by
  refine (safe_liftE _ _).bind fun n => Triple.assume fun hcheck => ?_
  rw [checked_capacity_u64_eq_ok, Nat.max_eq_left hpos] at hcheck
  obtain ⟨hfits, -, rfl⟩ := hcheck
  refine Triple.get_bind fun input hin => Triple.ite (fun hlt => ?_) fun _ =>
    Triple.pure fun _ h => h
  have hfile : available ≤ input.file.length := hin
  omega

theorem safe_each {ι α : Type} {f : ι → GraphRead α}
    (hf : ∀ i, Triple Fault.IsCrash (Within available) (f i) fun _ => Within available)
    (is : List ι) :
    Triple Fault.IsCrash (Within available) (each f is) fun _ => Within available := by
  induction is with
  | nil => exact Triple.pure fun _ h => h
  | cons i is ih =>
      exact (hf i).bind fun a => ih.bind fun as => Triple.pure fun _ h => h

theorem safe_layers {read_id : GraphRead ℕ} {stride : ℕ} (hpos : 0 < stride)
    (hid : Triple Fault.IsCrash (Within available) read_id fun _ => Within available) :
    Triple Fault.IsCrash (Within available) (read_layers read_id stride available)
      fun _ => Within available := by
  have hcounted : ∀ {α : Type} {p : GraphRead α} {min_stride : ℕ} {what : String},
      0 < min_stride → (Triple Fault.IsCrash (Within available) p fun _ => Within available) →
      Triple Fault.IsCrash (Within available) (do
        let count ← read_le 4
        bounded count min_stride available what
        times count p) fun _ => Within available := fun hpos hp =>
    (safe_le 4).bind fun count => (safe_bounded hpos _).bind fun _ =>
      safe_each (fun _ => hp) (List.replicate count ())
  exact hcounted (by omega) (hcounted hpos hid)

theorem safe_from_here {α : Type} {f : StorageInput → GraphRead α}
    (hf : ∀ input, Triple Fault.IsCrash (Within input.remaining) (f input)
      fun _ => Within input.remaining) :
    Triple Fault.IsCrash (Within 0) (get >>= f) fun _ => Within 0 := by
  intro input _
  have hin : Within input.remaining input := by
    rw [Within, remaining]
    omega
  exact ((hf input).post fun _ next _ => Nat.zero_le _) input hin

theorem safe_nodes_v1 (node_count : ℕ) :
    Triple Fault.IsCrash (Within 0) (read_nodes_v1 node_count) fun _ => Within 0 :=
  safe_from_here fun _ => (safe_bounded (by omega) _).bind fun _ =>
    safe_each (fun _ => (safe_le 8).bind fun _ => (safe_layers (by omega) (safe_le 8)).bind
      fun _ => Triple.pure fun _ h => h) _

theorem safe_doc_of (ids : List ℕ) (ord : ℕ) :
    Triple Fault.IsCrash (Within available) (doc_of ids ord) fun _ => Within available := by
  unfold doc_of
  split
  · exact Triple.pure fun _ h => h
  · exact Triple.throw id

theorem safe_nodes_v2 (ids : List ℕ) (node_count : ℕ) :
    Triple Fault.IsCrash (Within 0) (read_nodes_v2 ids node_count) fun _ => Within 0 :=
  safe_from_here fun _ => (safe_bounded (by omega) _).bind fun _ =>
    safe_each (fun _ => (safe_layers (by omega) ((safe_le 4).bind (safe_doc_of ids))).bind
      fun _ => Triple.pure fun _ h => h) ids

theorem safe_block_v1 :
    Triple Fault.IsCrash (Within 0) load_graph_block_v1 fun _ => Within 0 :=
  (safe_le 8).bind fun _ => (safe_le 4).bind fun _ => (safe_le 8).bind fun count =>
    (safe_nodes_v1 count).bind fun _ => Triple.pure fun _ h => h

theorem safe_block_v2 (vectors : List ℕ) :
    Triple Fault.IsCrash (Within 0) (load_graph_block_v2 vectors) fun _ => Within 0 := by
  refine (safe_liftE _ _).bind fun ids => Triple.assume fun _ => (safe_le 4).bind fun raw => ?_
  have hentry : Triple Fault.IsCrash (Within 0) (ordinal_entry ids raw) fun _ => Within 0 :=
    Triple.ite (fun _ => Triple.pure fun _ h => h) fun _ =>
      (safe_doc_of ids raw).bind fun _ => Triple.pure fun _ h => h
  refine hentry.bind fun entry => (safe_le 4).bind fun _ => (safe_le 4).bind fun count => ?_
  refine Triple.ite (fun _ => ?_) fun _ => ?_
  · intro input _
    exact ⟨fun _ _ h => (by cases h), fun e h => (by cases h; exact id)⟩
  · exact (safe_nodes_v2 ids count).bind fun _ => Triple.pure fun _ h => h

/-- **A load neither panics nor reserves more than the file could hold**,
whatever the bytes. -/
theorem load_graph_safe (version : ℕ) (vectors : List ℕ) (input : StorageInput) :
    ∀ e, load_graph version vectors input = .error e → ¬ e.IsCrash := by
  have hblock : Triple Fault.IsCrash (Within 0) (load_graph_block version vectors)
      fun _ => Within 0 :=
    Triple.ite (fun _ => safe_block_v2 vectors) fun _ => safe_block_v1
  have hload : Triple Fault.IsCrash (Within 0) (load_graph version vectors) fun _ => Within 0 := by
    refine Triple.get_bind fun input _ => Triple.ite (fun _ => Triple.pure fun _ h => h)
      fun _ => (safe_exact 1).bind fun byte => Triple.ite (fun _ => ?_) fun _ =>
        Triple.pure fun _ h => h
    exact hblock.bind fun block => Triple.pure fun _ h => h
  exact (hload input (Nat.zero_le _)).2

end Safe

end HnswGraph

/-!
## The ordinal table

A segment's ordinals are the ranks in its record ids, sorted and taken
once each. The writer and both loaders build the table on their own; over
sorted records it is one table (`load_unique_ids_eq_ok`), ascending and
with every record's id in it (`unique_ids_spec`).
-/

variable {records : List ℕ}

/-- The loader's table is the writer's, and it is built exactly over sorted
records. -/
theorem load_unique_ids_some {ids : List ℕ} {last : ℕ} :
    load_unique_ids (some last) records = .ok ids ↔
      (last :: records).IsChain (· ≤ ·) ∧ ids = unique_ids (some last) records := by
  induction records generalizing last ids with
  | nil =>
      simp [load_unique_ids, unique_ids]
  | cons doc_id records ih =>
      rw [load_unique_ids, unique_ids, List.isChain_cons_cons]
      rcases Nat.lt_trichotomy doc_id last with hlt | rfl | hgt
      · grind
      · grind
      · rw [if_neg (by omega), if_neg (by omega), if_neg (by rw [Option.some.injEq]; omega)]
        constructor
        · intro h
          rcases hrest : load_unique_ids (some doc_id) records with e | rest
          · rw [hrest] at h
            cases h
          · rw [hrest] at h
            cases h
            grind
        · rintro ⟨⟨-, hchain⟩, rfl⟩
          rw [ih.2 ⟨hchain, rfl⟩]
          rfl

theorem load_unique_ids_eq_ok {ids : List ℕ} :
    load_unique_ids none records = .ok ids ↔
      records.Pairwise (· ≤ ·) ∧ ids = unique_ids none records := by
  rw [← List.isChain_iff_pairwise]
  rcases records with _ | ⟨doc_id, records⟩
  · simp only [load_unique_ids, unique_ids, Except.ok.injEq, List.IsChain.nil, true_and]
    exact eq_comm
  · rw [load_unique_ids, unique_ids, if_neg (by simp)]
    constructor
    · intro h
      rcases hrest : load_unique_ids (some doc_id) records with e | rest
      · rw [hrest] at h
        cases h
      · rw [hrest] at h
        cases h
        grind [load_unique_ids_some]
    · rintro ⟨hchain, rfl⟩
      rw [load_unique_ids_some.2 ⟨hchain, rfl⟩]
      rfl

theorem unique_ids_some {last : ℕ} (h : (last :: records).Pairwise (· ≤ ·)) :
    (unique_ids (some last) records).Pairwise (· < ·) ∧
      ∀ id, id ∈ unique_ids (some last) records ↔ id ∈ records ∧ last < id := by
  induction records generalizing last with
  | nil => simp [unique_ids]
  | cons doc_id records ih =>
      rw [List.pairwise_cons] at h
      obtain ⟨hle, hrest⟩ := h
      have hdoc := hle doc_id List.mem_cons_self
      rw [unique_ids]
      split
      · grind
      grind [List.pairwise_cons]

/-- **The ordinal table** of sorted records: their ids, ascending. -/
theorem unique_ids_spec (h : records.Pairwise (· ≤ ·)) :
    (unique_ids none records).Pairwise (· < ·) ∧
      ∀ id, id ∈ unique_ids none records ↔ id ∈ records := by
  rcases records with _ | ⟨doc_id, records⟩
  · exact ⟨List.Pairwise.nil, fun id => Iff.rfl⟩
  · obtain ⟨hsorted, hmem⟩ := unique_ids_some h
    rw [unique_ids, if_neg (by simp)]
    grind [List.pairwise_cons]

theorem unique_ids_nodup (h : records.Pairwise (· ≤ ·)) :
    (unique_ids none records).Nodup := (unique_ids_spec h).1.imp Nat.ne_of_lt

theorem unique_ids_sublist (last : Option ℕ) (records : List ℕ) :
    (unique_ids last records).Sublist records := by
  induction records generalizing last with
  | nil => exact List.Sublist.slnil
  | cons doc_id records ih =>
      rw [unique_ids]
      grind

end Laurus
