import PlotJugglerCore.Lib.Runs
import PlotJugglerCore.Store.Layout
import PlotJugglerCore.Store.TimeOrder

/-!
# Field ids of several writers

A field id is a position in the column list of a topic. A writer takes a copy of the list when it
first works on the topic and does not look again, and when it adds columns it writes its own list
back, whatever the others have added in the meantime. So two writers that both add columns overwrite
each other's, unless what the one has missed is what it adds now.

As long as no call does that, all lists are beginnings of one list that only grows: the copies of
the writers, the columns of their builders, those of the chunks on their way and those of the chunks
that are committed (`World.Agreed`). Then a field id names the same column for ever. And a call that does
takes columns from the topic, so the condition is exact (`World.run_keepsIds_iff`).
-/

namespace PlotJuggler

/-! ## Statements -/

/-- A field id that a call has returned, and what the caller has said of the column. -/
structure FieldHandle where
  id : ℕ
  path : String
  type : Option PrimitiveType
  deriving DecidableEq, Repr

namespace FieldHandle

/-- The column has the path and the type of the handle. -/
def Names (h : FieldHandle) (col : ColumnDescriptor) : Prop :=
  col.fieldPath = h.path ∧ ∀ type ∈ h.type, col.logicalType = type

/-- The handle that a call returns. -/
def ofCall : TopicCall → Outcome → Option FieldHandle
  | .ensureColumn path type, .number id => some ⟨id, path, some type⟩
  | .resolveField path, .number id => some ⟨id, path, none⟩
  | _, _ => none

/-- The list of the topic has the column at the position of the handle (the stored list, or as long
as nothing is stored the one of the schema), and so has every chunk that reaches that far. -/
structure Stable (schema : Option TypeTreeNode) (s : TopicStorage) (h : FieldHandle) : Prop where
  listed : ∃ col, (TopicView.loadColumns schema s)[h.id]? = some col ∧ h.Names col
  stored : s.columnDescriptors ≠ [] → ∃ col, s.columnDescriptors[h.id]? = some col ∧ h.Names col
  chunks : ∀ chunk ∈ s.sealedChunks, ∀ col, chunk.descriptors[h.id]? = some col → h.Names col

end FieldHandle

namespace TopicView

/-- The columns of the topic that the writer does not know of. -/
def missed (schema : Option TypeTreeNode) (v : TopicView) : List ColumnDescriptor :=
  (loadColumns schema v.storage).drop (columnList schema v).length

/-- The columns that a call adds to the writer's list, where it writes that list back. -/
def added (schema : Option TypeTreeNode) (v : TopicView) :
    TopicCall → Option (List ColumnDescriptor)
  | .ensureColumn path type =>
    if path ∈ columnPaths schema v ∨ v.isRowInProgress then none
    else some [⟨(columnList schema v).length, type, path⟩]
  | .expandArray path newLength type =>
    if v.isRowInProgress ∨
        min newLength v.storage.descriptor.arrayExpansionLimit ≤ v.storage.arrayExpansionCount path
      then none
    else (checkArray schema path).toOption.map fun node ↦
      (expandedColumns path type node (v.storage.arrayExpansionCount path)
        (min newLength v.storage.descriptor.arrayExpansionLimit) (columnList schema v)).drop
        (columnList schema v).length
  | _ => none

/-- The condition on a call: where it writes the list back, the columns that the writer has missed
come first among those it adds. -/
def CatchesUp (schema : Option TypeTreeNode) (v : TopicView) (c : TopicCall) : Prop :=
  ∀ new ∈ added schema v c, missed schema v <+: new

instance (schema : Option TypeTreeNode) (v : TopicView) (c : TopicCall) :
    Decidable (v.CatchesUp schema c) :=
  inferInstanceAs (Decidable (∀ new ∈ added schema v c, _))

end TopicView

/-! ## Lists that begin alike -/

/-- All that the writer has made with columns, it has made with a beginning of `cols`. -/
structure TopicWriter.Within (cols : List ColumnDescriptor) (tw : TopicWriter) : Prop where
  columns : tw.columns <+: cols
  builder : ∀ b, tw.builder = some b → b.descriptors <+: cols
  pending : ∀ chunk ∈ tw.pending, chunk.descriptors <+: cols

theorem TopicWriter.Within.mono {cols cols' : List ColumnDescriptor} {tw : TopicWriter}
    (h : tw.Within cols) (hcols : cols <+: cols') : tw.Within cols' :=
  ⟨h.columns.trans hcols, fun b hb ↦ (h.builder b hb).trans hcols,
    fun chunk hchunk ↦ (h.pending chunk hchunk).trans hcols⟩

namespace TopicView

variable {schema : Option TypeTreeNode} {v v' v₀ : TopicView} {c : TopicCall} {out : Outcome}
  {cols : List ColumnDescriptor} {b : TopicChunkBuilder}

/-! ### What a call makes -/

theorem within_setBuilder (h : v.writer.Within cols) (hb : b.descriptors <+: cols) :
    (v.setBuilder b).writer.Within cols :=
  ⟨h.columns, fun _ heq ↦ Option.some.inj heq ▸ hb, h.pending⟩

theorem within_stage (h : v.writer.Within cols) (hb : b.descriptors <+: cols) :
    (v.stage b).writer.Within cols := by
  refine ⟨h.columns, by simp, ?_⟩
  rw [stage_pending]
  refine List.forall_mem_append.mpr ⟨h.pending, List.forall_mem_singleton.mpr ?_⟩
  rwa [TopicChunkBuilder.descriptors_sealChunk]

theorem within_putBack (h : v.writer.Within cols) (hb : b.descriptors <+: cols) :
    (v.putBack b).writer.Within cols := by
  rw [putBack_eq]
  split_ifs
  · exact within_stage h hb
  · exact within_setBuilder h hb

/-- The list of a writer only grows. -/
theorem Micro.columns_starts (h : Micro schema v₀ c v v') :
    v.writer.columns <+: v'.writer.columns := by
  cases h with
  | load =>
    rw [ensureColsLoaded_columns]
    split_ifs with hcols
    · exact List.prefix_rfl
    · rw [not_not.mp hcols]
      exact List.nil_prefix
  | finishRow => rw [putBack_columns]
  | batch => rw [putBack_columns]
  | close => rw [sealBeforeLayoutChange_columns]
  | grow _ _ _ hgrows => exact hgrows.1
  | _ => exact List.prefix_rfl

/-- Whatever is made is made with the list of the writer, so it lies within the list at the end. -/
theorem Micro.within (h : Micro schema v₀ c v v') (hfits : v.Fits)
    (hcols : v'.writer.columns <+: cols) (hv : v.writer.Within cols) : v'.writer.Within cols := by
  cases h with
  | load =>
    refine ⟨hcols, ?_, ?_⟩
    · rw [ensureColsLoaded_builder]
      exact hv.builder
    · rw [ensureColsLoaded_pending]
      exact hv.pending
  | create hb =>
    refine within_setBuilder hv ?_
    rw [newBuilder, TopicChunkBuilder.descriptors_of_new]
    exact hv.columns
  | beginRow hb h =>
    obtain ⟨-, -, rfl⟩ := TopicChunkBuilder.beginRow_eq_some h
    have hold := hv.builder _ hb
    exact within_setBuilder hv hold
  | cell hb h =>
    refine within_setBuilder hv ?_
    rw [TopicChunkBuilder.descriptors_runCellCall h]
    exact hv.builder _ hb
  | finishRow hb h =>
    refine within_putBack hv ?_
    rw [TopicChunkBuilder.descriptors_finishRow h]
    exact hv.builder _ hb
  | batch hc hne hb h =>
    refine within_putBack hv ?_
    rw [TopicChunkBuilder.descriptors_runBatch (hfits _ hb).pending h]
    exact hv.builder _ hb
  | close hrow =>
    rw [sealBeforeLayoutChange]
    split
    · rename_i b hb
      split_ifs
      · exact within_stage hv (hv.builder b hb)
      · exact ⟨hv.columns, by simp, hv.pending⟩
    · exact hv
  | grow hb => exact ⟨hcols, hv.builder, hv.pending⟩
  | note => exact hv

theorem Path.within (h : Path schema v₀ c v v') (hfits : v.Fits)
    (hcols : v'.writer.columns <+: cols) (hv : v.writer.Within cols) : v'.writer.Within cols := by
  induction h with
  | refl => exact hv
  | tail hpath hlast ih =>
    have hfits' := Path.induction (fun _ _ ↦ Micro.fits) hpath hfits
    exact hlast.within hfits' hcols (ih (hlast.columns_starts.trans hcols))

/-! ### What a call does to the list of the topic -/

theorem columnList_starts (h : v.writer.columns <+: loadColumns schema v.storage) :
    columnList schema v <+: loadColumns schema v.storage := by
  by_cases hnil : v.writer.columns = []
  · rw [columnList_of_nil hnil]
  · rwa [columnList_of_ne hnil]

/-- The list of the topic from the list of the writer and what it has missed. -/
theorem columnList_append_missed (h : columnList schema v <+: loadColumns schema v.storage) :
    columnList schema v ++ missed schema v = loadColumns schema v.storage :=
  List.prefix_append_drop h |>.symm

theorem expandArray_added {path : String} {newLength : ℕ} {type : PrimitiveType}
    {r : Except WriteError ℕ} (hdense : v.Dense)
    (h : v.expandArray schema path newLength type = some (v', r)) :
    (∃ new, added schema v (.expandArray path newLength type) = some new ∧
      Writes (columnList schema v ++ new) v v') ∨
      added schema v (.expandArray path newLength type) = none ∧ Counted v v' := by
  rw [added]
  split_ifs with hnone
  · refine .inr ⟨rfl, ?_⟩
    rcases expandArray_spec h with ⟨e, -, hcounted⟩ | ⟨n, -, hexpands⟩
    · exact hcounted
    rcases hexpands.columns with ⟨-, hcounted⟩ | ⟨hlt, hrow, -⟩
    · exact hcounted
    · have hnumber := hexpands.number
      rcases hnone with hopen | hle
      · rw [hrow] at hopen
        cases hopen
      · omega
  obtain ⟨hrow, hlt⟩ := not_or.mp hnone
  rw [not_le] at hlt
  rcases hcheck : checkArray schema path with e | node
  · refine .inr ⟨rfl, ?_⟩
    rcases expandArray_spec h with ⟨e, -, hcounted⟩ | ⟨n, -, hexpands⟩
    · exact hcounted
    rcases hexpands.columns with ⟨-, hcounted⟩ | ⟨-, -, node, hok, -⟩
    · exact hcounted
    · rw [hcheck] at hok
      cases hok
  · obtain ⟨u, hu⟩ := expandArray_isSome type hcheck (Bool.eq_false_iff.mpr hrow)
      (Session.denseIds_of_dense hdense.columnList) hlt
    obtain ⟨rfl, rfl⟩ := Prod.mk.inj (Option.some.inj (h.symm.trans hu))
    obtain ⟨n, hn, hexpands⟩ := (expandArray_spec h).resolve_left fun ⟨e, he, _⟩ ↦ (nomatch he)
    obtain rfl := Except.ok.inj hn
    obtain ⟨hsame, -⟩ | ⟨-, -, node', hok, hwrites, -⟩ := hexpands.columns
    · exact absurd hsame hlt.ne'
    · obtain rfl := Except.ok.inj (hcheck.symm.trans hok)
      refine .inl ⟨_, rfl, ?_⟩
      rwa [← List.prefix_append_drop
        (grows_expandedColumns path type node _ _ (columnList schema v)).1]

/-- A call that writes its list back adds the columns of `added`, and any other leaves the list of
the topic alone. -/
theorem call_added (hfits : v.Fits) (hdense : v.Dense) (hcall : v.call schema c = some (v', out)) :
    (∃ new, added schema v c = some new ∧ Writes (columnList schema v ++ new) v v') ∨
      added schema v c = none ∧ (OnlyLoads schema v v' ∨ Counted v v') := by
  match c with
  | .ensureColumn path type =>
    obtain ⟨⟨u, r⟩, hu, heq⟩ := Option.map_eq_some_iff.mp hcall
    obtain ⟨rfl, -⟩ := Prod.mk.inj heq
    rcases ensureColumn_cases hu with ⟨hold, h⟩ | ⟨hnew, hrow, -, hwrites, -⟩
    · exact .inr ⟨if_pos hold, .inl h⟩
    · refine .inl ⟨_, if_neg ?_, hwrites⟩
      rw [hrow]
      exact fun h ↦ h.elim hnew Bool.false_ne_true
  | .expandArray path newLength type =>
    obtain ⟨⟨u, r⟩, hu, heq⟩ := Option.map_eq_some_iff.mp hcall
    obtain ⟨rfl, -⟩ := Prod.mk.inj heq
    exact (expandArray_added hdense hu).imp_right (And.imp_right .inr)
  | .beginRow _ | .set _ _ | .setNull _ | .finishRow | .appendColumns _ _ | .resolveField _ =>
    exact .inr ⟨rfl, .inl (onlyLoads_call hfits hcall (by simp) (by simp))⟩

theorem Writes.loadColumns (h : Writes cols v v') (hne : cols ≠ []) :
    TopicView.loadColumns schema v'.storage = cols := by
  rw [TopicView.loadColumns.eq_def, h.stored, if_pos hne]

/-- The list of the topic goes on where it ended exactly if the call catches up, and then the
writer's is a beginning of it. -/
theorem call_grows_iff (hfits : v.Fits) (hdense : v.Dense)
    (hcall : v.call schema c = some (v', out))
    (hv : v.writer.columns <+: TopicView.loadColumns schema v.storage) :
    TopicView.loadColumns schema v.storage <+: TopicView.loadColumns schema v'.storage ↔
      v.CatchesUp schema c := by
  have hlist := columnList_append_missed (columnList_starts hv)
  rcases call_added hfits hdense hcall with ⟨new, hnew, hwrites⟩ | ⟨hnone, hkeeps⟩
  · have hcatches : v.CatchesUp schema c ↔ missed schema v <+: new := by
      rw [CatchesUp, hnew]
      exact ⟨fun h ↦ h new rfl, fun h _ heq ↦ Option.some.inj heq ▸ h⟩
    by_cases hne : columnList schema v ++ new = []
    · have hload := (columns_of_columnList_nil (List.append_eq_nil_iff.mp hne).1).2
      rw [hcatches, missed, hload, List.drop_nil]
      exact iff_of_true List.nil_prefix List.nil_prefix
    · rw [hcatches, hwrites.loadColumns hne, ← hlist]
      exact List.prefix_append_right_inj _
  · refine iff_of_true ?_ fun _ h ↦ ?_
    · rcases hkeeps with h | h
      · rw [h.storage]
      · rw [loadColumns_congr h.contents]
    · rw [hnone] at h
      cases h

/-- Whatever a call does, the writer knows a beginning of the list of the topic behind it. -/
theorem call_columns (hfits : v.Fits) (hdense : v.Dense) (hcall : v.call schema c = some (v', out))
    (hv : v.writer.columns <+: TopicView.loadColumns schema v.storage) :
    v'.writer.columns <+: TopicView.loadColumns schema v'.storage := by
  rcases call_added hfits hdense hcall with ⟨new, -, hwrites⟩ | ⟨-, hloads | hcounted⟩
  · rw [hwrites.columns]
    by_cases hne : columnList schema v ++ new = []
    · rw [hne]
      exact List.nil_prefix
    · rw [hwrites.loadColumns hne]
  · rw [hloads.storage]
    rcases hloads.columns with hsame | hloaded
    · rwa [hsame]
    · rw [hloaded]
      exact columnList_starts hv
  · rwa [loadColumns_congr hcounted.contents, hcounted.writer]

/-- A call that catches up leaves the writer within the list of the topic. -/
theorem call_within (hfits : v.Fits) (hdense : v.Dense) (hcall : v.call schema c = some (v', out))
    (hcatches : v.CatchesUp schema c)
    (hv : v.writer.Within (TopicView.loadColumns schema v.storage)) :
    v'.writer.Within (TopicView.loadColumns schema v'.storage) :=
  (call_path hfits hcall).within hfits (call_columns hfits hdense hcall hv.columns)
    (hv.mono ((call_grows_iff hfits hdense hcall hv.columns).mpr hcatches))

theorem within_flush (hv : v.writer.Within cols) :
    v.flush.1.writer.Within cols ∧ ∀ chunk ∈ v.flush.2, chunk.descriptors <+: cols := by
  have hcolumns : v.flush.1.writer.columns <+: cols := by
    rw [flush_columns]
    exact hv.columns
  rcases v.flush_cases with ⟨b, hb, -, hnone, hout⟩ | ⟨-, hsame, hout⟩
  · refine ⟨⟨hcolumns, by simp [hnone], by simp⟩, ?_⟩
    rw [hout]
    refine List.forall_mem_append.mpr ⟨hv.pending, List.forall_mem_singleton.mpr ?_⟩
    rw [TopicChunkBuilder.descriptors_sealChunk]
    exact hv.builder b hb
  · rw [hout]
    exact ⟨⟨hcolumns, hsame ▸ hv.builder, by simp⟩, hv.pending⟩

/-! ### Handles -/

theorem getElem?_of_find {path : String} {col : ColumnDescriptor} (hdense : PlotJuggler.Dense cols)
    (h : cols.find? (fun col ↦ col.fieldPath = path) = some col) :
    cols[col.fieldId]? = some col ∧ col.fieldPath = path := by
  obtain ⟨i, hi⟩ := List.getElem?_of_mem (List.mem_of_find?_eq_some h)
  refine ⟨?_, by simpa using List.find?_some h⟩
  rw [hdense i col hi]
  exact hi

/-- A call that returns a handle leaves the writer with the column. -/
theorem getElem?_of_handle {handle : FieldHandle} (hdense : v.Dense)
    (hcall : v.call schema c = some (v', out)) (h : FieldHandle.ofCall c out = some handle) :
    ∃ col, v'.writer.columns[handle.id]? = some col ∧ handle.Names col := by
  match c with
  | .ensureColumn path type =>
    obtain ⟨⟨u, r⟩, hu, heq⟩ := Option.map_eq_some_iff.mp hcall
    obtain ⟨rfl, rfl⟩ := Prod.mk.inj heq
    rcases r with e | id
    · cases h
    obtain rfl := Option.some.inj h
    rw [ensureColumn] at hu
    split at hu
    · rename_i col hfind
      split_ifs at hu with htype
      · obtain ⟨-, hid⟩ := Prod.mk.inj (Option.some.inj hu)
        cases hid
      obtain ⟨rfl, hid⟩ := Prod.mk.inj (Option.some.inj hu)
      obtain rfl := Except.ok.inj hid
      obtain ⟨hcol, hpath⟩ := getElem?_of_find hdense.columnList hfind
      exact ⟨col, hcol, hpath, fun t ht ↦ (not_not.mp htype).trans (Option.some.inj ht)⟩
    · split_ifs at hu
      · obtain ⟨-, hid⟩ := Prod.mk.inj (Option.some.inj hu)
        cases hid
      obtain ⟨rfl, hid⟩ := Prod.mk.inj (Option.some.inj hu)
      obtain rfl := Except.ok.inj hid
      exact ⟨_, List.getElem?_concat_length, rfl, fun t ht ↦ Option.some.inj ht⟩
  | .resolveField path =>
    obtain ⟨rfl, rfl⟩ := Prod.mk.inj (Option.some.inj hcall)
    have h : FieldHandle.ofCall (.resolveField path)
      (.ofNat (v.resolveField schema path).2) = some handle := h
    rw [resolveField] at h
    dsimp only at h
    split at h
    · rename_i col hfind
      obtain rfl := Option.some.inj h
      have hdense' : PlotJuggler.Dense (v.getOrCreateBuilder schema).writer.columns := by
        have hloads : OnlyLoads schema v _ := onlyLoads_getOrCreateBuilder v
        rcases hloads.columns with hsame | hloaded
        · rw [hsame]
          exact hdense.writer.columns
        · rw [hloaded]
          exact hdense.columnList
      obtain ⟨hcol, hpath⟩ := getElem?_of_find hdense' hfind
      exact ⟨col, hcol, hpath, by simp⟩
    · cases h
  | .beginRow _ | .set _ _ | .setNull _ | .finishRow | .appendColumns _ _ | .expandArray _ _ _ =>
    cases h

end TopicView

/-! ## Runs -/

/-- A call of a writer of engine `e`, or a commit to it. -/
def Call.OfEngine (S : Setup) (e : ℕ) : Call → Prop
  | .topic w _ _ | .flush w _ | .flushAll w _ _ => S.home w = e
  | .commitChunks e' _ => e' = e
  | _ => False

instance (S : Setup) (e : ℕ) (c : Call) : Decidable (c.OfEngine S e) :=
  match c with
  | .topic w _ _ | .flush w _ | .flushAll w _ _ => inferInstanceAs (Decidable (S.home w = e))
  | .commitChunks e' _ => inferInstanceAs (Decidable (e' = e))
  | .evictBefore _ _ _ | .enforceRetention _ _ | .clearChunks _ _ | .flushTo _ _ => .isFalse id

/-- The handle that a call on topic `τ` returns. -/
def Call.handle (τ : ℕ) (c : Call) (out : Outcome) : Option FieldHandle :=
  match c with
  | .topic _ σ c => if σ = τ then FieldHandle.ofCall c out else none
  | _ => none

namespace World

variable {S : Setup} {e τ w σ : ℕ} {W W' : World} {v v' : TopicView} {c : Call} {out : Outcome}
  {calls : List Call}

/-- The column list of topic `τ` of engine `e`. -/
def columns (S : Setup) (e τ : ℕ) (W : World) : List ColumnDescriptor :=
  ((W.engines e).topics τ).elim [] fun s ↦
    TopicView.loadColumns (S.schema e s.descriptor.schemaId) s

/-- The condition on a call: where it writes a list back to the topic, the columns that the writer
has missed come first among those it adds. -/
def CatchesUp (S : Setup) (τ : ℕ) (W : World) : Call → Prop
  | .topic w σ c => σ = τ → ∀ v ∈ W.view S w τ, v.CatchesUp (schemaOf S w v) c
  | _ => True

instance (S : Setup) (τ : ℕ) (W : World) (c : Call) : Decidable (W.CatchesUp S τ c) :=
  match c with
  | .topic w σ c =>
    inferInstanceAs (Decidable (σ = τ → ∀ v ∈ W.view S w τ, v.CatchesUp (schemaOf S w v) c))
  | .flush _ _ | .flushAll _ _ _ | .commitChunks _ _ | .evictBefore _ _ _ | .enforceRetention _ _
  | .clearChunks _ _ | .flushTo _ _ => .isTrue trivial

/-- In every run that starts like `calls`, the column list only ever goes on where it ended, and a
handle that was returned stays stable. -/
structure KeepsIds (S : Setup) (e τ : ℕ) (W : World) (calls : List Call) : Prop where
  grows : ∀ front c, front ++ [c] <+: calls → ∀ W₁ r, Runs.run (step S) W front = some W₁ →
    W₁.step S c = some r → W₁.columns S e τ <+: r.1.columns S e τ
  stable : ∀ front c back, front ++ c :: back <+: calls → ∀ W₁ r W₂,
    Runs.run (step S) W front = some W₁ → W₁.step S c = some r →
    Runs.run (step S) r.1 back = some W₂ → ∀ h ∈ c.handle τ r.2, ∃ s,
      (W₂.engines e).topics τ = some s ∧ h.Stable (S.schema e s.descriptor.schemaId) s

/-- All that was made with columns of the topic was made with a beginning of its list. -/
structure Agreed (S : Setup) (e τ : ℕ) (W : World) : Prop where
  topic : ((W.engines e).topics τ).isSome
  chunks : ∀ s, (W.engines e).topics τ = some s →
    ∀ chunk ∈ s.sealedChunks, chunk.descriptors <+: W.columns S e τ
  writers : ∀ w, S.home w = e → (W.writers w τ).Within (W.columns S e τ)
  inFlight : ∀ batch ∈ W.inFlight, ∀ p ∈ batch, p.1 = τ → p.2.descriptors <+: W.columns S e τ

theorem columns_of_some {s : TopicStorage} (hs : (W.engines e).topics τ = some s) :
    W.columns S e τ = TopicView.loadColumns (S.schema e s.descriptor.schemaId) s := by
  rw [columns, hs]
  rfl

theorem columns_of_view (hv : W.view S w τ = some v) :
    W.columns S (S.home w) τ = TopicView.loadColumns (schemaOf S w v) v.storage :=
  columns_of_some (view_eq_some hv).1

theorem Initial.agreed (hW : W.Initial S) (htopic : ((W.engines e).topics τ).isSome) :
    W.Agreed S e τ := by
  obtain ⟨s, hs⟩ := Option.isSome_iff_exists.mp htopic
  refine ⟨htopic, fun s' hs' chunk hchunk ↦ ?_,
    fun w hw ↦ ⟨?_, fun b hb ↦ ?_, fun chunk hchunk ↦ ?_⟩, fun batch hbatch ↦ ?_⟩
  · rw [hW.chunks e τ s' hs'] at hchunk
    exact absurd hchunk List.not_mem_nil
  · rcases hW.columns w τ with hnil | hcopy
    · rw [hnil]
      exact List.nil_prefix
    · rw [hcopy s (hw ▸ hs), columns_of_some hs, TopicView.loadColumns.eq_def]
      split_ifs with hstored
      · exact List.prefix_rfl
      · rw [not_not.mp hstored]
        exact List.nil_prefix
  · rw [hW.builder] at hb
    cases hb
  · rw [hW.pending] at hchunk
    exact absurd hchunk List.not_mem_nil
  · rw [hW.inFlight] at hbatch
    exact absurd hbatch List.not_mem_nil

/-! ### What keeps the agreement -/

/-- What happens on other topics is of no importance. -/
theorem Agreed.congr (h : W.Agreed S e τ)
    (htopics : (W'.engines e).topics τ = (W.engines e).topics τ)
    (hwriters : ∀ w, W'.writers w τ = W.writers w τ) (hflight : W'.inFlight = W.inFlight) :
    W'.Agreed S e τ ∧ W'.columns S e τ = W.columns S e τ := by
  have hcols : W'.columns S e τ = W.columns S e τ := by rw [columns, htopics, columns]
  refine ⟨⟨htopics ▸ h.topic, ?_, ?_, ?_⟩, hcols⟩
  · rw [htopics, hcols]
    exact h.chunks
  · intro w hw
    rw [hwriters, hcols]
    exact h.writers w hw
  · rw [hflight, hcols]
    exact h.inFlight

theorem Agreed.putView_of_ne (h : W.Agreed S (S.home w) τ) (hne : σ ≠ τ) :
    (W.putView S w σ v').Agreed S (S.home w) τ ∧
      (W.putView S w σ v').columns S (S.home w) τ = W.columns S (S.home w) τ := by
  refine h.congr ?_ (fun w' ↦ ?_) rfl
  · rw [putView_engines_self, Engine.mapTopic_of_ne hne.symm]
  · rw [putView_writers, setWriter_of_ne fun heq ↦ hne heq.2.symm]

theorem columns_putView_self (hv : W.view S w τ = some v)
    (hdesc : v'.storage.descriptor = v.storage.descriptor) :
    (W.putView S w τ v').columns S (S.home w) τ =
      TopicView.loadColumns (schemaOf S w v) v'.storage := by
  have hs : ((W.putView S w τ v').engines (S.home w)).topics τ = some v'.storage := by
    rw [putView_engines_self, Engine.mapTopic_self, (view_eq_some hv).1]
    rfl
  rw [columns_of_some hs, hdesc]
  rfl

/-- A view of the topic, put back with a list that goes on where it ended. -/
theorem Agreed.putView_self (h : W.Agreed S (S.home w) τ) (hv : W.view S w τ = some v)
    (hdesc : v'.storage.descriptor = v.storage.descriptor)
    (hchunks : v'.storage.sealedChunks = v.storage.sealedChunks)
    (hgrows : TopicView.loadColumns (schemaOf S w v) v.storage <+:
      TopicView.loadColumns (schemaOf S w v) v'.storage)
    (hwithin : v'.writer.Within (TopicView.loadColumns (schemaOf S w v) v'.storage)) :
    (W.putView S w τ v').Agreed S (S.home w) τ := by
  have hs : ((W.putView S w τ v').engines (S.home w)).topics τ = some v'.storage := by
    rw [putView_engines_self, Engine.mapTopic_self, (view_eq_some hv).1]
    rfl
  have hcols := columns_putView_self (S := S) hv hdesc
  have hold := columns_of_view hv
  refine ⟨by rw [hs]; rfl, fun s' hs' chunk hchunk ↦ ?_, fun w' hw' ↦ ?_, ?_⟩ <;> rw [hcols]
  · obtain rfl := Option.some.inj (hs.symm.trans hs')
    rw [hchunks] at hchunk
    exact (hold ▸ h.chunks _ (view_eq_some hv).1 chunk hchunk).trans hgrows
  · rw [putView_writers]
    by_cases heq : w' = w
    · subst heq
      rwa [setWriter_self]
    · rw [setWriter_of_ne fun hpair ↦ heq hpair.1]
      exact (hold ▸ h.writers w' hw').mono hgrows
  · exact fun batch hbatch p hp hτ ↦ (hold ▸ h.inFlight batch hbatch p hp hτ).trans hgrows

theorem Agreed.flushTopic (h : W.Agreed S (S.home w) τ) (σ : ℕ) :
    ((W.flushTopic S w σ).1.Agreed S (S.home w) τ ∧
      (W.flushTopic S w σ).1.columns S (S.home w) τ = W.columns S (S.home w) τ) ∧
      ∀ p ∈ (W.flushTopic S w σ).2, p.1 = τ → p.2.descriptors <+: W.columns S (S.home w) τ := by
  rcases hv : W.view S w σ with _ | v
  · rw [flushTopic_of_none hv]
    exact ⟨⟨h, rfl⟩, by simp⟩
  · rw [flushTopic_of_some hv]
    by_cases hσ : σ = τ
    · subst hσ
      have hold := columns_of_view hv
      have hwithin : v.writer.Within (TopicView.loadColumns (schemaOf S w v) v.storage) := by
        rw [← hold, ← (view_eq_some hv).2.1]
        exact h.writers w rfl
      obtain ⟨hflush, hout⟩ := TopicView.within_flush hwithin
      have hstorage := v.flush_storage
      rw [hold]
      refine ⟨?_, fun p hp _ ↦ ?_⟩
      · refine ⟨h.putView_self hv (by rw [hstorage]) (by rw [hstorage]) (by rw [hstorage])
          (by rwa [hstorage]), ?_⟩
        rw [columns_putView_self hv (by rw [hstorage]), hstorage]
      · obtain ⟨chunk, hchunk, rfl⟩ := List.mem_map.mp hp
        exact hout chunk hchunk
    · refine ⟨h.putView_of_ne hσ, fun p hp hτ ↦ ?_⟩
      obtain ⟨chunk, -, rfl⟩ := List.mem_map.mp hp
      exact absurd hτ hσ

theorem Agreed.takePending (h : W.Agreed S (S.home w) τ) (σ : ℕ) :
    ((W.takePending w σ).1.Agreed S (S.home w) τ ∧
      (W.takePending w σ).1.columns S (S.home w) τ = W.columns S (S.home w) τ) ∧
      ∀ p ∈ (W.takePending w σ).2, p.1 = τ → p.2.descriptors <+: W.columns S (S.home w) τ := by
  have hw := h.writers w rfl
  refine ⟨⟨⟨h.topic, h.chunks, fun w' hw' ↦ ?_, h.inFlight⟩, rfl⟩, fun p hp hτ ↦ ?_⟩
  · by_cases heq : w' = w ∧ τ = σ
    · obtain ⟨rfl, rfl⟩ := heq
      show ((W.setWriter w' τ _).writers w' τ).Within _
      rw [setWriter_self]
      exact ⟨hw.columns, hw.builder, by simp⟩
    · show ((W.setWriter w σ _).writers w' τ).Within _
      rw [setWriter_of_ne heq]
      exact h.writers w' hw'
  · obtain ⟨chunk, hchunk, rfl⟩ := List.mem_map.mp hp
    obtain rfl := hτ
    exact hw.pending chunk hchunk

theorem Agreed.handOut {p : World × List (ℕ × TopicChunk)} (h : p.1.Agreed S e τ)
    (hp : ∀ q ∈ p.2, q.1 = τ → q.2.descriptors <+: p.1.columns S e τ) :
    (handOut p).Agreed S e τ := by
  refine ⟨h.topic, h.chunks, h.writers, fun batch hbatch ↦ ?_⟩
  rcases List.mem_append.mp hbatch with hbatch | hbatch
  · exact h.inFlight batch hbatch
  · rwa [List.mem_singleton.mp hbatch]

/-- A batch whose chunks have columns of the list changes nothing about the list. -/
theorem commitChunks_within {schema : Option TypeTreeNode} {engine : Engine} {s : TopicStorage}
    (batch : List (ℕ × TopicChunk)) (hs : engine.topics τ = some s)
    (hchunks : ∀ chunk ∈ s.sealedChunks, chunk.descriptors <+: TopicView.loadColumns schema s)
    (hbatch : ∀ p ∈ batch, p.1 = τ → p.2.descriptors <+: TopicView.loadColumns schema s) :
    ∃ s', (engine.commitChunks batch).topics τ = some s' ∧ s'.descriptor = s.descriptor ∧
      TopicView.loadColumns schema s' = TopicView.loadColumns schema s ∧
      ∀ chunk ∈ s'.sealedChunks, chunk.descriptors <+: TopicView.loadColumns schema s := by
  induction batch generalizing engine s with
  | nil => exact ⟨s, hs, rfl, rfl, hchunks⟩
  | cons p batch ih =>
    obtain ⟨hp, hrest⟩ := List.forall_mem_cons.mp hbatch
    rw [Engine.commitChunks, List.foldl_cons]
    by_cases hτ : p.1 = τ
    · have hs' : (engine.commitChunk p.1 p.2).topics τ =
          some ((s.appendSealedChunk p.2).getD s) := by
        rw [Engine.commitChunk, hτ, Engine.mapTopic_self, hs, Option.map_some]
      rcases Session.commitChunk_cases s p.2 with hrefused | hadded
      · exact ih (hs'.trans (congrArg some hrefused)) hchunks hrest
      · have hload : TopicView.loadColumns schema
            { s with sealedChunks := s.sealedChunks ++ [p.2] } = TopicView.loadColumns schema s :=
          Session.loadColumns_append (hp hτ)
        have hall' : ∀ chunk ∈ s.sealedChunks ++ [p.2],
            chunk.descriptors <+: TopicView.loadColumns schema s :=
          List.forall_mem_append.mpr ⟨hchunks, List.forall_mem_singleton.mpr (hp hτ)⟩
        obtain ⟨s'', hs'', hdesc, hcols, hall⟩ := ih (hs'.trans (congrArg some hadded))
          (hload.symm ▸ hall') (hload.symm ▸ hrest)
        exact ⟨s'', hs'', hdesc, hcols.trans hload, hload ▸ hall⟩
    · refine ih ?_ hchunks hrest
      rw [Engine.commitChunk, Engine.mapTopic_of_ne (Ne.symm hτ), hs]

theorem Agreed.commitChunks (h : W.Agreed S e τ) (k : ℕ) :
    let W' := { W.setEngine e ((W.engines e).commitChunks (W.inFlight.getD k [])) with
      inFlight := W.inFlight.eraseIdx k }
    W'.Agreed S e τ ∧ W'.columns S e τ = W.columns S e τ := by
  obtain ⟨s, hs⟩ := Option.isSome_iff_exists.mp h.topic
  have hcols := columns_of_some (S := S) hs
  obtain ⟨s', hs', hdesc, hload, hchunks⟩ := commitChunks_within (W.inFlight.getD k []) hs
    (hcols ▸ h.chunks s hs) (hcols ▸ forall_mem_getD_inFlight h.inFlight k)
  intro W'
  have hself : (W'.engines e).topics τ = some s' := by
    show ((W.setEngine e _).engines e).topics τ = some s'
    rw [setEngine_self, hs']
  have hsame : W'.columns S e τ = W.columns S e τ := by
    rw [columns_of_some hself, hcols, hdesc, hload]
  refine ⟨⟨by rw [hself]; rfl, fun t ht ↦ ?_, ?_, fun batch hbatch ↦ ?_⟩, hsame⟩ <;> rw [hsame]
  · obtain rfl := Option.some.inj (hself.symm.trans ht)
    rwa [hcols]
  · exact h.writers
  · exact h.inFlight batch (List.mem_of_mem_eraseIdx hbatch)

/-! ### Steps -/

/-- The invariant of runs. -/
structure Sound (S : Setup) (e τ : ℕ) (W : World) : Prop where
  fits : W.Fits S
  dense : W.Dense S
  agreed : W.Agreed S e τ

theorem Initial.sound (hW : W.Initial S) (htopic : ((W.engines e).topics τ).isSome) :
    W.Sound S e τ :=
  ⟨hW.fits, hW.dense, hW.agreed htopic⟩

/-- A view of the topic in a sound world. -/
theorem Sound.within (hW : W.Sound S (S.home w) τ) (hv : W.view S w τ = some v) :
    v.writer.Within (TopicView.loadColumns (schemaOf S w v) v.storage) := by
  rw [← columns_of_view hv, ← (view_eq_some hv).2.1]
  exact hW.agreed.writers w rfl

/-- A step that catches up keeps the agreement, on a list that goes on where it ended. -/
theorem Sound.step (hW : W.Sound S e τ) (hc : c.OfEngine S e) (h : W.step S c = some (W', out))
    (hcatches : W.CatchesUp S τ c) :
    W'.Sound S e τ ∧ W.columns S e τ <+: W'.columns S e τ := by
  suffices hgoal : W'.Agreed S e τ ∧ W.columns S e τ <+: W'.columns S e τ from
    ⟨⟨(step_keeps hW.fits h).2, step_dense hW.fits hW.dense h, hgoal.1⟩, hgoal.2⟩
  have hsame : ∀ {V : World}, V.Agreed S e τ ∧ V.columns S e τ = W.columns S e τ →
      V.Agreed S e τ ∧ W.columns S e τ <+: V.columns S e τ :=
    fun hV ↦ ⟨hV.1, hV.2.symm ▸ List.prefix_rfl⟩
  cases c with
  | topic w σ tc =>
    obtain rfl : S.home w = e := hc
    rcases topicCall_eq_some h with ⟨-, rfl⟩ | ⟨v, v', hv, hcall, rfl⟩
    · exact hsame ⟨hW.agreed, rfl⟩
    by_cases hσ : σ = τ
    · subst hσ
      have hfits := hW.fits.view hv
      have hdense := hW.dense.view hv
      have hwithin := hW.within hv
      have hnow := hcatches rfl v hv
      obtain ⟨-, hdesc, hchunks⟩ := TopicView.call_storage hfits hcall
      have hgrows := (TopicView.call_grows_iff hfits hdense hcall hwithin.columns).mpr hnow
      refine ⟨hW.agreed.putView_self hv hdesc hchunks hgrows
        (TopicView.call_within hfits hdense hcall hnow hwithin), ?_⟩
      rwa [columns_of_view hv, columns_putView_self hv hdesc]
    · exact hsame (hW.agreed.putView_of_ne hσ)
  | flush w σ =>
    obtain rfl : S.home w = e := hc
    obtain ⟨rfl, -⟩ := Prod.mk.inj (Option.some.inj h)
    obtain ⟨⟨hagreed, hcols⟩, hout⟩ := hW.agreed.flushTopic σ
    exact hsame ⟨hagreed.handOut (hcols.symm ▸ hout), hcols⟩
  | flushAll w order order' =>
    obtain rfl : S.home w = e := hc
    obtain ⟨rfl, -⟩ := Prod.mk.inj (Option.some.inj h)
    obtain ⟨⟨hagreed, hcols⟩, hout⟩ := flushAll_induction (S := S) (w := w)
      (I := fun V ↦ V.Agreed S (S.home w) τ ∧ V.columns S (S.home w) τ = W.columns S (S.home w) τ)
      (P := fun p ↦ p.1 = τ → p.2.descriptors <+: W.columns S (S.home w) τ)
      (fun V σ hV ↦ hV.2 ▸ hV.1.takePending σ) order order'
      (fun V σ _ hV ↦ hV.2 ▸ hV.1.flushTopic σ) ⟨hW.agreed, rfl⟩
    exact hsame ⟨hagreed.handOut (hcols.symm ▸ hout), hcols⟩
  | commitChunks e' k =>
    obtain rfl : e' = e := hc
    obtain ⟨rfl, -⟩ := Prod.mk.inj (Option.some.inj h)
    exact hsame (hW.agreed.commitChunks k)
  | _ => exact hc.elim

/-- A step that does not catch up takes columns from the list. -/
theorem Sound.catchesUp (hW : W.Sound S e τ) (hc : c.OfEngine S e)
    (h : W.step S c = some (W', out)) (hgrows : W.columns S e τ <+: W'.columns S e τ) :
    W.CatchesUp S τ c := by
  cases c with
  | topic w σ tc =>
    obtain rfl : S.home w = e := hc
    rintro rfl v hv
    rcases topicCall_eq_some h with ⟨hnone, -⟩ | ⟨u, v', hu, hcall, rfl⟩
    · cases hnone.symm.trans hv
    obtain rfl := Option.some.inj (hu.symm.trans hv)
    have hfits := hW.fits.view hu
    have hdesc := (TopicView.call_storage hfits hcall).2.1
    rw [columns_of_view hu, columns_putView_self hu hdesc] at hgrows
    exact (TopicView.call_grows_iff hfits (hW.dense.view hu) hcall (hW.within hu).columns).mp hgrows
  | _ => trivial

/-! ### Handles -/

theorem getElem?_of_starts {cols cols' : List ColumnDescriptor} (h : cols <+: cols') {i : ℕ}
    {col : ColumnDescriptor} (hcol : cols[i]? = some col) : cols'[i]? = some col := by
  obtain ⟨hi, rfl⟩ := List.getElem?_eq_some_iff.mp hcol
  exact List.prefix_iff_getElem?.mp h i hi

/-- What a handle names is in the list when it is returned. -/
theorem Sound.handle (hW : W.Sound S e τ) (hc : c.OfEngine S e) (h : W.step S c = some (W', out))
    (hW' : W'.Sound S e τ) {handle : FieldHandle} (hhandle : c.handle τ out = some handle) :
    ∃ col, (W'.columns S e τ)[handle.id]? = some col ∧ handle.Names col := by
  cases c with
  | topic w σ tc =>
    obtain rfl : S.home w = e := hc
    rw [Call.handle] at hhandle
    split_ifs at hhandle with hσ
    subst hσ
    rcases topicCall_eq_some h with ⟨hnone, rfl⟩ | ⟨v, v', hv, hcall, rfl⟩
    · obtain ⟨s, hs⟩ := Option.isSome_iff_exists.mp hW.agreed.topic
      rw [view, hs] at hnone
      cases hnone
    · obtain ⟨col, hcol, hnames⟩ :=
        TopicView.getElem?_of_handle (hW.dense.view hv) hcall hhandle
      have hwriter := (hW'.agreed.writers w rfl).columns
      rw [putView_writers, setWriter_self] at hwriter
      exact ⟨col, getElem?_of_starts hwriter hcol, hnames⟩
  | _ => cases hhandle

/-- In a sound world a handle is stable that names a column of the list. -/
theorem Sound.stable (hW : W.Sound S e τ) {handle : FieldHandle} {col : ColumnDescriptor}
    (hcol : (W.columns S e τ)[handle.id]? = some col) (hnames : handle.Names col) :
    ∃ s, (W.engines e).topics τ = some s ∧
      handle.Stable (S.schema e s.descriptor.schemaId) s := by
  obtain ⟨s, hs⟩ := Option.isSome_iff_exists.mp hW.agreed.topic
  have hcols := columns_of_some (S := S) hs
  refine ⟨s, hs, ⟨col, hcols ▸ hcol, hnames⟩, fun hstored ↦ ⟨col, ?_, hnames⟩,
    fun chunk hchunk col' hcol' ↦ ?_⟩
  · rwa [hcols, TopicView.loadColumns.eq_def, if_pos hstored] at hcol
  · have heq := (getElem?_of_starts (hW.agreed.chunks s hs chunk hchunk) hcol').symm.trans hcol
    obtain rfl := Option.some.inj heq
    exact hnames

/-! ### Runs -/

theorem Sound.run (hW : W.Sound S e τ)
    (hmeets : Runs.Meets (World.step S) (fun W c _ ↦ W.CatchesUp S τ c ∧ c.OfEngine S e) W calls)
    (h : Runs.run (World.step S) W calls = some W') :
    W'.Sound S e τ ∧ W.columns S e τ <+: W'.columns S e τ := by
  refine Runs.run_induction (I := fun V ↦ V.Sound S e τ ∧ W.columns S e τ <+: V.columns S e τ)
    (fun V c V' out hV hstep hc ↦ ?_) hmeets h ⟨hW, List.prefix_rfl⟩
  obtain ⟨hsound, hgrows⟩ := hV.1.step hc.2 hstep hc.1
  exact ⟨hsound, hV.2.trans hgrows⟩

/-- If the list only ever goes on where it ended, all calls have caught up. -/
theorem Sound.meets (hW : W.Sound S e τ) (hcalls : ∀ c ∈ calls, c.OfEngine S e)
    (hgrows : ∀ front c, front ++ [c] <+: calls → ∀ W₁ r,
      Runs.run (World.step S) W front = some W₁ → W₁.step S c = some r →
        W₁.columns S e τ <+: r.1.columns S e τ) :
    Runs.Meets (World.step S) (fun W c _ ↦ W.CatchesUp S τ c) W calls := by
  induction calls generalizing W with
  | nil => trivial
  | cons c calls ih =>
    obtain ⟨hc, hrest⟩ := List.forall_mem_cons.mp hcalls
    intro r hr
    have hcatches := hW.catchesUp hc hr
      (hgrows [] c (List.prefix_append [c] calls) W r rfl hr)
    refine ⟨hcatches, ih (hW.step hc hr hcatches).1 hrest fun front d hpre W₁ r' hrun ↦
      hgrows (c :: front) d (List.cons_prefix_cons.mpr ⟨rfl, hpre⟩) W₁ r' ?_⟩
    rw [Runs.run, hr]
    exact hrun

/-- Among any number of writers of an engine, field ids are stable and no column is taken away in
exactly those runs in which every call catches up. -/
theorem run_keepsIds_iff (hinit : W.Initial S) (htopic : ((W.engines e).topics τ).isSome)
    (hcalls : ∀ c ∈ calls, c.OfEngine S e) : W.KeepsIds S e τ calls ↔
      Runs.Meets (World.step S) (fun W c _ ↦ W.CatchesUp S τ c) W calls := by
  have hW := hinit.sound htopic
  refine ⟨fun h ↦ hW.meets hcalls h.grows, fun h ↦ ?_⟩
  have hmeets := h.and_forall hcalls
  refine ⟨fun front c hpre W₁ r hrun hr ↦ ?_,
    fun front c back hpre W₁ r W₂ hrun hr hback handle hh ↦ ?_⟩
  · obtain ⟨rest, rfl⟩ := hpre
    rw [List.append_assoc] at hmeets
    obtain ⟨hcatches, hc⟩ := (hmeets.of_run hrun r hr).1
    exact ((hW.run hmeets.of_append hrun).1.step hc hr hcatches).2
  · obtain ⟨rest, rfl⟩ := hpre
    have hsuffix := hmeets.of_append.of_run hrun
    obtain ⟨⟨hcatches, hc⟩, hrest⟩ := hsuffix r hr
    have hW₁ := (hW.run hmeets.of_append.of_append hrun).1
    have hnext := (hW₁.step hc hr hcatches).1
    obtain ⟨col, hcol, hnames⟩ := hW₁.handle hc hr hnext hh
    obtain ⟨hlast, hgrows⟩ := hnext.run hrest hback
    exact hlast.stable (getElem?_of_starts hgrows hcol) hnames

/-- The column list that a run leaves. -/
def columnsAfter (S : Setup) (W : World) (calls : List Call) (e τ : ℕ) :
    Option (List ColumnDescriptor) :=
  (Runs.run (step S) W calls).map (·.columns S e τ)

/-- Two writers with rows of their own. The first has missed a column when it asks for it. -/
def writersInTurn : List Call :=
  [.topic 0 1 (.ensureColumn "x" .int32), .topic 0 1 (.beginRow 1), .topic 0 1 (.set 0 (.int32 7)),
    .topic 0 1 .finishRow, .topic 1 1 (.resolveField "x"), .topic 1 1 (.ensureColumn "y" .float64),
    .topic 0 1 (.ensureColumn "y" .float64), .topic 1 1 (.beginRow 2),
    .topic 1 1 (.set 0 (.int32 8)), .topic 1 1 .finishRow, .flush 0 1, .flush 1 1,
    .commitChunks 0 0, .commitChunks 0 0, .topic 0 1 (.ensureColumn "z" .int32)]

theorem run_keepsIds_iff_writersInTurn :
    columnsAfter schemaless twoEngines writersInTurn 0 1 =
      some [⟨0, .int32, "x"⟩, ⟨1, .float64, "y"⟩, ⟨2, .int32, "z"⟩] ∧
    twoEngines.KeepsIds schemaless 0 1 writersInTurn :=
  ⟨by decide +kernel, (run_keepsIds_iff (start_initial _) (by decide) (by decide +kernel)).mpr
    (by decide +kernel)⟩

/-- Both writers know of `x`, and each adds a column that the other does not know of. -/
def writersApart : List Call :=
  [.topic 0 1 (.ensureColumn "x" .int32), .topic 1 1 (.ensureColumn "x" .int32),
    .topic 0 1 (.ensureColumn "y" .int32), .topic 1 1 (.ensureColumn "z" .float64)]

/-- The first writer is told that `y` has id 1, and the last call takes `y` away again. -/
theorem not_keepsIds :
    (∀ c ∈ writersApart, c.OfEngine schemaless 0) ∧
    columnsAfter schemaless twoEngines (writersApart.take 3) 0 1 =
      some [⟨0, .int32, "x"⟩, ⟨1, .int32, "y"⟩] ∧
    ((Runs.run (step schemaless) twoEngines (writersApart.take 2)).bind fun W ↦
      (W.step schemaless (.topic 0 1 (.ensureColumn "y" .int32))).map Prod.snd) =
        some (.number 1) ∧
    columnsAfter schemaless twoEngines writersApart 0 1 =
      some [⟨0, .int32, "x"⟩, ⟨1, .float64, "z"⟩] ∧
    ¬ twoEngines.KeepsIds schemaless 0 1 writersApart := by
  have hcalls : ∀ c ∈ writersApart, c.OfEngine schemaless 0 := by decide
  refine ⟨hcalls, by decide +kernel, by decide +kernel, by decide +kernel, fun h ↦ ?_⟩
  have hmeets := ((start_initial _).sound (by decide)).meets hcalls h.grows
  exact absurd hmeets (by decide +kernel)

end World

end PlotJuggler
