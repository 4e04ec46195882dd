import EveDB.Storage.IndexPages
import EveDB.Storage.IndexTree

/-!
# A bulk-built index is the map it was built from

What `IndexWriter` writes is followed page by page. While entries are appended, the pages are
full leaves, each chained to the page behind it although that is not written yet
(`IndexWriter.Filled`); `finishPart` writes the last leaf, which ends the chain, and then whole
levels of branches over the level below, until one page is left (`IndexWriter.Raised`).

Everything that is said about the pages is said of every file that contains them
(`Index.Contains`), so it holds as well of the finished file, where the metadata page is in
place, and of every later file that has other trees in front of or behind this one.
-/

namespace EveDB

namespace Index

/-! ### Files that contain pages -/

/-- The pages one behind the other. -/
def joined (pages : List PageBytes) : Bytes := (pages.map Subtype.val).flatten

/-- The file has these pages from `id` on. -/
def Contains (file : Bytes) : ℕ → List PageBytes → Prop
  | _, [] => True
  | id, page :: pages => pageAt file id = .ok page ∧ Contains file (id + 1) pages

section Files

variable {file : Bytes} {lsn id : ℕ}

@[simp] theorem joined_append (pages pages' : List PageBytes) :
    joined (pages ++ pages') = joined pages ++ joined pages' := by
  rw [joined, List.map_append, List.flatten_append, joined, joined]

@[simp] theorem joined_cons (page : PageBytes) (pages : List PageBytes) :
    joined (page :: pages) = page.1 ++ joined pages := rfl

theorem length_joined (pages : List PageBytes) :
    (joined pages).length = pages.length * pageSize := by
  induction pages with
  | nil => exact (Nat.zero_mul _).symm
  | cons page pages ih =>
    rw [joined_cons, List.length_append, ih, page.2, List.length_cons, Nat.succ_mul, Nat.add_comm]

theorem contains_append {pages pages' : List PageBytes} :
    Contains file id (pages ++ pages') ↔
      Contains file id pages ∧ Contains file (id + pages.length) pages' := by
  induction pages generalizing id with
  | nil => exact (true_and _).to_iff.symm
  | cons page pages ih =>
    rw [List.cons_append, Contains, ih, Contains, and_assoc, List.length_cons, Nat.add_right_comm,
      Nat.add_assoc]

/-- A file with the pages in it contains them. -/
theorem contains_of_joined {pages : List PageBytes} {before after : Bytes}
    (hbefore : before.length = id * pageSize)
    (hlen : (before ++ (joined pages ++ after)).length ≤ maxU64) :
    Contains (before ++ (joined pages ++ after)) id pages := by
  induction pages generalizing id before with
  | nil => trivial
  | cons page pages ih =>
    have hpage : page.1.length = pageSize := page.2
    have hnext : (before ++ page.1).length = (id + 1) * pageSize := by
      rw [List.length_append, hbefore, hpage, Nat.succ_mul]
    rw [joined_cons, List.append_assoc] at hlen ⊢
    constructor
    · rw [List.length_append, List.length_append, hpage] at hlen
      rw [pageAt, if_neg (by omega),
        dif_pos (by rw [List.length_append, List.length_append, hpage]; omega)]
      congr 1
      apply Subtype.ext
      show Buffer.slice _ _ _ = page.1
      rw [Buffer.slice, List.drop_left' hbefore, List.take_left' hpage]
    · rw [← List.append_assoc] at hlen ⊢
      exact ih hnext hlen

/-- The number of a page that can be read fits eight bytes. -/
theorem lt_of_pageAt {page : PageBytes} (h : pageAt file id = .ok page) : id < 2 ^ 64 := by
  rw [pageAt] at h
  split at h
  · cases h
  · next hle =>
    have hmax : maxU64 < 2 ^ 64 := by decide
    have hid : id ≤ id * pageSize := Nat.le_mul_of_pos_right id (by decide)
    omega

theorem readNode_of_pageAt {page : PageBytes} {node : Node id} (hpage : pageAt file id = .ok page)
    (hnode : Node.decode page id = .ok node) (hlsn : node.lsn = lsn) :
    readNode file id lsn = .ok node := by
  rw [readNode, hpage, ok_bind, hnode, ok_bind, if_neg (not_not.mpr hlsn)]
  rfl

/-- **A leaf that was written** can be read. -/
theorem leafAt_of_pageAt {entries : List Entry} {next : ℕ}
    (hpage : pageAt file id = .ok (checksummed (leafPage id lsn next entries)))
    (hlsn : lsn < 2 ^ 64) (hnext : next < 2 ^ 64) (hne : entries ≠ [])
    (hlen : entries.length ≤ leafCapacity) (hfits : ∀ e ∈ entries, Fits e.1 ∧ Fits e.2)
    (hascending : SortedList.Ascending order entries) (hchain : next = 0 ∨ id < next) :
    LeafAt file lsn id entries next := by
  obtain ⟨node, hdecode, hreads, hentries⟩ :=
    decode_leafPage (lt_of_pageAt hpage) hlsn hnext hne hlen hfits hascending hchain
  exact ⟨node, readNode_of_pageAt hpage hdecode hreads.lsn, hreads.kind, hreads.next, hentries⟩

/-- **A branch that was written** can be read. -/
theorem branchAt_of_pageAt {children : List (Key × ℕ)}
    (hpage : pageAt file id = .ok (checksummed (branchPage id lsn children)))
    (hlsn : lsn < 2 ^ 64) (hne : children ≠ []) (hlen : children.length ≤ branchCapacity)
    (hfits : ∀ c ∈ children, Fits c.1 ∧ 0 < c.2 ∧ c.2 < id)
    (hascending : SortedList.Ascending (fun c => toLex c.1) children) :
    BranchAt file lsn id children := by
  obtain ⟨node, hdecode, hreads, hchildren⟩ :=
    decode_branchPage (lt_of_pageAt hpage) hlsn hne hlen hfits hascending
  exact ⟨node, readNode_of_pageAt hpage hdecode hreads.lsn, hreads.kind, hchildren⟩

/-- The `n` pages from `id` on can be read. -/
def Readable (file : Bytes) (lsn id n : ℕ) : Prop :=
  ∀ i < n, ∃ node, readNode file (id + i) lsn = .ok node

theorem Readable.cons {n : ℕ} (h : ∃ node, readNode file id lsn = .ok node)
    (hrest : Readable file lsn (id + 1) n) : Readable file lsn id (n + 1) := by
  rintro (_ | i) hi
  · exact h
  · have := hrest i (by omega)
    rwa [Nat.add_assoc, Nat.add_comm 1] at this

theorem Readable.append {n m : ℕ} (h : Readable file lsn id n)
    (hrest : Readable file lsn (id + n) m) : Readable file lsn id (n + m) := by
  intro i hi
  rcases Nat.lt_or_ge i n with hlt | hge
  · exact h i hlt
  · have := hrest (i - n) (by omega)
    rwa [Nat.add_assoc, Nat.add_sub_cancel' hge] at this

theorem Readable.of_le {n k : ℕ} (h : Readable file lsn id n) (hle : id ≤ k) (hlt : k < id + n) :
    ∃ node, readNode file k lsn = .ok node := by
  obtain ⟨i, rfl⟩ := Nat.exists_eq_add_of_le hle
  exact h i (by omega)

theorem lt_of_readNode {node : Node id} (h : readNode file id lsn = .ok node) : id < 2 ^ 64 := by
  rcases hpage : pageAt file id with e | page
  · rw [readNode, hpage] at h
    cases h
  · exact lt_of_pageAt hpage

theorem LeafAt.readable {entries : List Entry} {next : ℕ} (h : LeafAt file lsn id entries next) :
    ∃ node, readNode file id lsn = .ok node :=
  h.imp fun _ hnode => hnode.1

theorem BranchAt.readable {children : List (Key × ℕ)} (h : BranchAt file lsn id children) :
    ∃ node, readNode file id lsn = .ok node :=
  h.imp fun _ hnode => hnode.1

end Files

/-! ### Leaves -/

/-- The key a page is found under: that of its first entry. -/
def firstKey (entries : List Entry) : Key := (entries.head?.map Prod.fst).getD (0, 0)

/-- The pages of leaves from `id` on, each chained to the page behind it. -/
def leafPages (lsn : ℕ) : ℕ → List (List Entry) → List PageBytes
  | _, [] => []
  | id, entries :: leaves =>
    checksummed (leafPage id lsn (id + 1) entries) :: leafPages lsn (id + 1) leaves

/-- The level over these leaves. -/
def leafLevel : ℕ → List (List Entry) → List (Key × ℕ)
  | _, [] => []
  | id, entries :: leaves => (firstKey entries, id) :: leafLevel (id + 1) leaves

section Leaves

variable {lsn id : ℕ} {leaves : List (List Entry)}

@[simp] theorem length_leafPages : (leafPages lsn id leaves).length = leaves.length := by
  induction leaves generalizing id with
  | nil => rfl
  | cons entries leaves ih => rw [leafPages, List.length_cons, ih, List.length_cons]

theorem leafPages_concat (entries : List Entry) : leafPages lsn id (leaves ++ [entries]) =
    leafPages lsn id leaves ++ [checksummed
      (leafPage (id + leaves.length) lsn (id + leaves.length + 1) entries)] := by
  induction leaves generalizing id with
  | nil => rfl
  | cons first leaves ih =>
    rw [List.cons_append, leafPages, ih, leafPages, List.cons_append, List.length_cons,
      Nat.add_right_comm, Nat.add_assoc id]

theorem leafLevel_concat (entries : List Entry) : leafLevel id (leaves ++ [entries]) =
    leafLevel id leaves ++ [(firstKey entries, id + leaves.length)] := by
  induction leaves generalizing id with
  | nil => rfl
  | cons first leaves ih =>
    rw [List.cons_append, leafLevel, ih, leafLevel, List.cons_append, List.length_cons,
      Nat.add_right_comm, Nat.add_assoc id]

/-- The level names the pages from `id` on. -/
theorem mem_leafLevel {c : Key × ℕ} (h : c ∈ leafLevel id leaves) :
    id ≤ c.2 ∧ c.2 < id + leaves.length := by
  induction leaves generalizing id with
  | nil => cases h
  | cons entries leaves ih =>
    rw [List.length_cons]
    rcases List.mem_cons.mp h with rfl | h
    · exact ⟨le_rfl, by dsimp only; omega⟩
    · have := ih h
      omega

/-- What a leaf has to be like to be written. -/
structure Leafy (entries : List Entry) : Prop where
  nonempty : entries ≠ []
  capacity : entries.length ≤ leafCapacity

theorem Leafy.head {entries : List Entry} (h : Leafy entries) :
    entries.head?.map Prod.fst = some (firstKey entries) := by
  obtain ⟨e, es, rfl⟩ := List.exists_cons_of_ne_nil h.nonempty
  rfl

/-- A leaf is put in front of a forest of leaves. -/
theorem Leafy.cons {file : Bytes} {entries : List Entry} {children : List (Key × ℕ)}
    {behind : List (List Entry)} (h : Leafy entries)
    (hchain : Chain file lsn id (entries :: (leaves ++ behind)))
    (hrest : Forest (Tree file lsn 0) children leaves behind) :
    Forest (Tree file lsn 0) ((firstKey entries, id) :: children) (entries :: leaves) behind := by
  have hfirst : [entries].flatten.head?.map Prod.fst = some (firstKey entries) := by
    rw [List.flatten_singleton, h.head]
  have htree : Tree file lsn 0 id [entries] (leaves ++ behind) := ⟨entries, rfl, hchain⟩
  exact .cons hfirst htree hrest

/-- **Leaves that were written** are chained, the last one to nothing, and each is a tree. -/
theorem forest_of_leafPages {file : Bytes} {last : List Entry} (hid : id ≠ 0) (hlsn : lsn < 2 ^ 64)
    (hleaves : ∀ entries ∈ leaves, Leafy entries) (hlast : Leafy last)
    (hfits : ∀ e ∈ (leaves ++ [last]).flatten, Fits e.1 ∧ Fits e.2)
    (hascending : SortedList.Ascending order (leaves ++ [last]).flatten)
    (h : Contains file id (leafPages lsn id leaves ++
      [checksummed (leafPage (id + leaves.length) lsn 0 last)])) :
    Chain file lsn id (leaves ++ [last]) ∧
      Forest (Tree file lsn 0) (leafLevel id (leaves ++ [last])) (leaves ++ [last]) [] ∧
      Readable file lsn id (leaves.length + 1) := by
  induction leaves generalizing id with
  | nil =>
    rw [List.nil_append, List.flatten_singleton] at hfits hascending
    have hpage := leafAt_of_pageAt h.1 hlsn (by decide) hlast.nonempty hlast.capacity hfits
      hascending (Or.inl rfl)
    have hchain : Chain file lsn id [last] := .leaf hid hlast.nonempty hpage .done
    exact ⟨hchain, hlast.cons hchain (.nil []), .cons hpage.readable fun _ h => nomatch h⟩
  | cons entries leaves ih =>
    obtain ⟨hentries, hleaves⟩ := List.forall_mem_cons.mp hleaves
    rw [List.cons_append, List.flatten_cons] at hfits hascending
    obtain ⟨hfits, hfits'⟩ := List.forall_mem_append.mp hfits
    obtain ⟨hasc, hasc', -⟩ := List.pairwise_append.mp hascending
    rw [List.length_cons, ← Nat.add_assoc, Nat.add_right_comm] at h
    obtain ⟨hpage, hrest⟩ := h
    obtain ⟨hchain, hforest, hreadable⟩ := ih (Nat.succ_ne_zero id) hleaves hfits' hasc' hrest
    -- the page behind is there, so its number can be written
    have hnext : id + 1 < 2 ^ 64 := by
      cases leaves with
      | nil => exact lt_of_pageAt hrest.1
      | cons => exact lt_of_pageAt hrest.1
    have hleaf := leafAt_of_pageAt hpage hlsn hnext hentries.nonempty hentries.capacity hfits hasc
      (Or.inr (Nat.lt_succ_self id))
    have hchain' : Chain file lsn id (entries :: (leaves ++ [last])) :=
      .leaf hid hentries.nonempty hleaf hchain
    exact ⟨hchain', hentries.cons (by rwa [List.append_nil]) hforest,
      .cons hleaf.readable hreadable⟩

/-- The keys of a forest fit eight bytes each. -/
theorem Forest.fits {T : ℕ → List (List Entry) → List (List Entry) → Prop}
    {children : List (Key × ℕ)} {leaves behind : List (List Entry)}
    (h : Forest T children leaves behind) (hfits : ∀ e ∈ leaves.flatten, Fits e.1 ∧ Fits e.2)
    {c : Key × ℕ} (hc : c ∈ children) : Fits c.1 := by
  obtain ⟨e, he, hkey⟩ := h.exists_entry hc
  exact hkey ▸ (hfits e he).1

end Leaves

namespace IndexWriter

/-! ### Appending -/

/-- The writer has written these pages behind the room for its metadata page. -/
structure Written (old : Bytes) (lsn base : ℕ) (pages : List PageBytes) (w : IndexWriter) :
    Prop where
  file : w.file = old ++ (List.replicate pageSize 0 ++ joined pages)
  next : w.next = base + 1 + pages.length
  lsn : w.lsn = lsn
  base : w.base = base

/-- **What a writer has done with the entries so far**: full leaves, and one that is pending. -/
structure Filled (old : Bytes) (lsn base : ℕ) (entries : List Entry) (w : IndexWriter)
    (leaves : List (List Entry)) : Prop where
  written : Written old lsn base (leafPages lsn (base + 1) leaves) w
  split : entries = leaves.flatten ++ w.leaf
  leafy : ∀ leaf ∈ leaves, Leafy leaf
  capacity : w.leaf.length ≤ leafCapacity
  pending : entries ≠ [] → w.leaf ≠ []
  level : w.level = leafLevel (base + 1) leaves
  previous : w.previous = entries.getLast?.map Prod.fst

section Append

variable {old : Bytes} {lsn base : ℕ} {entries : List Entry} {w : IndexWriter}
  {leaves : List (List Entry)} {pages : List PageBytes}

theorem Written.snoc (h : Written old lsn base pages w) {page : PageBytes} {w' : IndexWriter}
    (hfile : w'.file = w.file ++ page.1) (hlsn : w'.lsn = w.lsn) (hbase : w'.base = w.base)
    (hnext : w'.next = w.next + 1) : Written old lsn base (pages ++ [page]) w' where
  file := by
    rw [hfile, h.file, joined_append, joined_cons, List.append_assoc, List.append_assoc]
    simp [joined]
  next := by rw [hnext, h.next, List.length_append, List.length_singleton, Nat.add_assoc]
  lsn := hlsn.trans h.lsn
  base := hbase.trans h.base

theorem filled_fromFile : Filled old lsn base [] (fromFile old lsn base) [] where
  written := ⟨by rw [fromFile]; simp [joined, leafPages], rfl, rfl, rfl⟩
  split := rfl
  leafy := List.forall_mem_nil _
  capacity := Nat.zero_le _
  pending := fun h => absurd rfl h
  level := rfl
  previous := rfl

/-- The pending leaf is written, chained to `next`. -/
theorem flushLeaf_eq (h : w.leaf ≠ []) (next : ℕ) : w.flushLeaf next =
    { w with
      file := w.file ++ (checksummed (leafPage w.next w.lsn next w.leaf)).1
      level := w.level ++ [(firstKey w.leaf, w.next)]
      next := w.next + 1
      leaf := [] } := by
  obtain ⟨e, es, he⟩ := List.exists_cons_of_ne_nil h
  rw [flushLeaf, he]
  rfl

/-- **An entry above the others** is added. -/
theorem Filled.append (h : Filled old lsn base entries w leaves) {key : Key} {value : IndexValue}
    (hascending : SortedList.Ascending order (entries ++ [(key, value)])) :
    ∃ w' leaves', w.append key value = (.ok (), w') ∧
      Filled old lsn base (entries ++ [(key, value)]) w' leaves' := by
  have hordered : ¬ (w.previous.any fun previous => toLex key ≤ toLex previous) := by
    rw [h.previous, Option.any_eq_true]
    rintro ⟨previous, hprevious, hle⟩
    obtain ⟨last, hlast, rfl⟩ := Option.map_eq_some_iff.mp hprevious
    have hlt := (List.pairwise_append.mp hascending).2.2 last (List.mem_of_getLast? hlast)
      (key, value) (List.mem_singleton_self _)
    exact hlt.not_ge (of_decide_eq_true hle)
  have hlast : (entries ++ [(key, value)]).getLast?.map Prod.fst = some key := by
    rw [List.getLast?_concat, Option.map_some]
  rw [IndexWriter.append, if_neg hordered]
  by_cases hfull : w.leaf.length = leafCapacity
  · -- the leaf is full and is written before the entry begins another one
    have hleafy : Leafy w.leaf :=
      ⟨List.ne_nil_of_length_pos (hfull ▸ by decide), h.capacity⟩
    rw [if_pos hfull, flushLeaf_eq hleafy.nonempty]
    refine ⟨_, leaves ++ [w.leaf], rfl, ?_, ?_, ?_, ?_, ?_, ?_, ?_⟩
    · rw [leafPages_concat]
      refine h.written.snoc ?_ rfl rfl rfl
      rw [h.written.next, h.written.lsn, length_leafPages]
    · simp [h.split]
    · exact List.forall_mem_append.mpr ⟨h.leafy, List.forall_mem_singleton.mpr hleafy⟩
    · exact Nat.le_of_ble_eq_true rfl
    · exact fun _ => List.cons_ne_nil _ _
    · rw [leafLevel_concat, h.level, h.written.next, length_leafPages]
    · exact hlast.symm
  · rw [if_neg hfull]
    refine ⟨_, leaves, rfl, ⟨h.written.file, h.written.next, h.written.lsn, h.written.base⟩,
      ?_, h.leafy, ?_, ?_, h.level, hlast.symm⟩
    · rw [h.split, List.append_assoc]
    · have hlt := lt_of_le_of_ne h.capacity hfull
      rw [List.length_append, List.length_singleton]
      exact hlt
    · exact fun _ => List.append_ne_nil_of_right_ne_nil _ (List.cons_ne_nil _ _)

/-- **An entry that is not above the others** is refused, and the writer is left as it was. -/
theorem Filled.append_of_le (h : Filled old lsn base entries w leaves) {last : Entry}
    (hlast : last ∈ entries.getLast?) {key : Key} (hle : toLex key ≤ order last)
    (value : IndexValue) :
    w.append key value = (corrupt "index keys are not strictly ordered", w) := by
  rw [IndexWriter.append, if_pos]
  rw [h.previous, Option.mem_def.mp hlast]
  exact decide_eq_true hle

/-- **Entries in order** are all added. -/
theorem Filled.appendAll (h : Filled old lsn base entries w leaves) {more : List Entry}
    (hascending : SortedList.Ascending order (entries ++ more)) :
    ∃ w' leaves', appendAll more w = .ok w' ∧ Filled old lsn base (entries ++ more) w' leaves' := by
  induction more generalizing entries w leaves with
  | nil => exact ⟨w, leaves, rfl, by rwa [List.append_nil]⟩
  | cons entry more ih =>
    rw [← List.singleton_append, ← List.append_assoc] at hascending ⊢
    obtain ⟨key, value⟩ := entry
    obtain ⟨w', leaves', happend, hfilled⟩ := h.append (List.pairwise_append.mp hascending).1
    obtain ⟨w'', leaves'', hrest, hfilled'⟩ := ih hfilled hascending
    refine ⟨w'', leaves'', ?_, hfilled'⟩
    rw [List.singleton_append, IndexWriter.appendAll, happend]
    exact hrest

end Append

/-! ### Branches -/

section Branches

variable {old : Bytes} {lsn base : ℕ} {w : IndexWriter} {pages : List PageBytes}
  {leaves behind : List (List Entry)}

/-- The writer behind a branch. -/
def afterBranch (w : IndexWriter) (children : List (Key × ℕ)) : IndexWriter :=
  { w with
    file := w.file ++ (checksummed (branchPage w.next w.lsn children)).1
    next := w.next + 1 }

theorem writeParents_cons (children : List (Key × ℕ)) (groups : List (List (Key × ℕ)))
    (w : IndexWriter) : writeParents (children :: groups) w =
      ((writeParents groups (w.afterBranch children)).1,
        ((children.head?.map Prod.fst).getD (0, 0), w.next) ::
          (writeParents groups (w.afterBranch children)).2) := rfl

theorem Written.afterBranch (h : Written old lsn base pages w) (children : List (Key × ℕ)) :
    Written old lsn base (pages ++ [checksummed (branchPage w.next lsn children)])
      (w.afterBranch children) :=
  h.snoc (by rw [IndexWriter.afterBranch, h.lsn]) rfl rfl rfl

theorem Written.next_le {more : List PageBytes} {w' : IndexWriter}
    (h : Written old lsn base pages w) (h' : Written old lsn base (pages ++ more) w') :
    w.next ≤ w'.next := by
  rw [h.next, h'.next, List.length_append, ← Nat.add_assoc]
  exact Nat.le_add_right _ _

/-- **A level of branches** is a forest one higher over the same leaves. -/
theorem writeParents_spec {groups : List (List (Key × ℕ))} (h : Written old lsn base pages w)
    (hlsn : lsn < 2 ^ 64) (hgroups : ∀ group ∈ groups, group ≠ [] ∧ group.length ≤ branchCapacity)
    (hids : ∀ c ∈ groups.flatten, 0 < c.2 ∧ c.2 < w.next) :
    ∃ branches, Written old lsn base (pages ++ branches) (writeParents groups w).1 ∧
      (∀ c ∈ (writeParents groups w).2, w.next ≤ c.2 ∧ c.2 < (writeParents groups w).1.next) ∧
      ∀ file, Contains file w.next branches → ∀ height leaves behind,
        SortedList.Ascending order leaves.flatten →
        (∀ e ∈ leaves.flatten, Fits e.1 ∧ Fits e.2) →
        Forest (Tree file lsn height) groups.flatten leaves behind →
        Forest (Tree file lsn (height + 1)) (writeParents groups w).2 leaves behind ∧
          Readable file lsn w.next branches.length := by
  induction groups generalizing w pages with
  | nil =>
    refine ⟨[], by rwa [List.append_nil], List.forall_mem_nil _, ?_⟩
    rintro file - height leaves behind - - hforest
    cases hforest
    exact ⟨.nil _, fun _ h => nomatch h⟩
  | cons children groups ih =>
    obtain ⟨⟨hne, hcapacity⟩, hgroups⟩ := List.forall_mem_cons.mp hgroups
    rw [List.flatten_cons] at hids
    obtain ⟨hids, hids'⟩ := List.forall_mem_append.mp hids
    have hstep := h.afterBranch children
    obtain ⟨branches, hwritten, hparents, hrest⟩ :=
      ih hstep hgroups fun c hc => ⟨(hids' c hc).1, Nat.lt_succ_of_lt (hids' c hc).2⟩
    rw [writeParents_cons]
    refine ⟨checksummed (branchPage w.next lsn children) :: branches, ?_, ?_, ?_⟩
    · rwa [List.append_assoc] at hwritten
    · refine List.forall_mem_cons.mpr ⟨⟨le_rfl, hstep.next_le hwritten⟩, fun c hc => ?_⟩
      have := hparents c hc
      exact ⟨(Nat.le_succ _).trans this.1, this.2⟩
    · rintro file ⟨hpage, hcontains⟩ height leaves behind hascending hfits hforest
      rw [List.flatten_cons] at hforest
      obtain ⟨as, bs, rfl, hchildren, hbehind⟩ := hforest.of_append
      rw [List.flatten_append] at hascending hfits
      obtain ⟨hasc, hasc', -⟩ := List.pairwise_append.mp hascending
      obtain ⟨hfits, hfits'⟩ := List.forall_mem_append.mp hfits
      obtain ⟨hforest', hreadable⟩ := hrest file hcontains height bs behind hasc' hfits' hbehind
      have hbranch := branchAt_of_pageAt hpage hlsn hne hcapacity
        (fun c hc => ⟨hchildren.fits hfits hc, hids c hc⟩) (hchildren.ascending hasc)
      refine ⟨?_, .cons hbranch.readable hreadable⟩
      have hfirst : as.flatten.head?.map Prod.fst =
          some ((children.head?.map Prod.fst).getD (0, 0)) := by
        obtain ⟨c, cs, rfl⟩ := List.exists_cons_of_ne_nil hne
        exact hchildren.head hne
      have hroot : w.next ≠ 0 := by
        rw [h.next]
        omega
      have htree : Tree file lsn (height + 1) w.next as (bs ++ behind) :=
        ⟨hroot, children, hbranch, hchildren⟩
      exact .cons hfirst htree hforest'

/-- **What a writer has done with the leaves so far**: the pages under its level are forests over
all of them. -/
structure Raised (old : Bytes) (lsn base : ℕ) (leaves : List (List Entry)) (w : IndexWriter)
    (pages : List PageBytes) : Prop where
  written : Written old lsn base pages w
  ids : ∀ c ∈ w.level, base < c.2 ∧ c.2 < w.next
  forest : ∀ file, Contains file (base + 1) pages →
    (∃ height, Forest (Tree file lsn height) w.level leaves []) ∧
      Readable file lsn (base + 1) pages.length

/-- **Levels are written until one page is left.** -/
theorem Raised.writeLevels (hlsn : lsn < 2 ^ 64)
    (hascending : SortedList.Ascending order leaves.flatten)
    (hfits : ∀ e ∈ leaves.flatten, Fits e.1 ∧ Fits e.2) (h : Raised old lsn base leaves w pages) :
    ∃ pages', Raised old lsn base leaves w.writeLevels pages' ∧ w.writeLevels.level.length ≤ 1 := by
  fun_induction IndexWriter.writeLevels w generalizing pages with
  | case1 w hlt written =>
    rename_i ih
    have hgroups : ∀ group ∈ Chunks.chunks branchCapacity w.level,
        group ≠ [] ∧ group.length ≤ branchCapacity := fun group hgroup =>
      ⟨Chunks.ne_nil_of_mem_chunks hgroup, Chunks.length_le_of_mem_chunks (by decide) hgroup⟩
    obtain ⟨branches, hwritten, hparents, hbranches⟩ := writeParents_spec h.written hlsn hgroups
      fun c hc => by
        rw [Chunks.flatten_chunks] at hc
        exact ⟨Nat.zero_lt_of_lt (h.ids c hc).1, (h.ids c hc).2⟩
    have hbase : base < w.next := by
      rw [h.written.next]
      omega
    refine @ih (pages ++ branches) ⟨⟨hwritten.file, hwritten.next, hwritten.lsn,
      hwritten.base⟩, fun c hc => ⟨hbase.trans_le (hparents c hc).1, (hparents c hc).2⟩, ?_⟩
    intro file hcontains
    obtain ⟨hpages, hcontains⟩ := contains_append.mp hcontains
    obtain ⟨⟨height, hforest⟩, hreadable⟩ := h.forest file hpages
    rw [← h.written.next] at hcontains
    rw [← Chunks.flatten_chunks branchCapacity w.level] at hforest
    obtain ⟨hforest', hreadable'⟩ :=
      hbranches file hcontains height leaves [] hascending hfits hforest
    rw [h.written.next] at hreadable'
    rw [List.length_append]
    exact ⟨⟨height + 1, hforest'⟩, hreadable.append hreadable'⟩
  | case2 w hle => exact ⟨pages, h, not_lt.mp hle⟩

end Branches

/-! ### Finishing -/

section Finish

variable {old : Bytes} {lsn base : ℕ} {entries : List Entry} {w : IndexWriter}
  {leaves : List (List Entry)} {pages : List PageBytes}

/-- **The last leaf** ends the chain. -/
theorem Filled.flushLeaf (hlsn : lsn < 2 ^ 64) (hfits : ∀ e ∈ entries, Fits e.1 ∧ Fits e.2)
    (hascending : SortedList.Ascending order entries)
    (h : Filled old lsn base entries w leaves) :
    ∃ leaves' pages, leaves'.flatten = entries ∧
      Raised old lsn base leaves' (w.flushLeaf 0) pages := by
  have hw := h.written
  by_cases hempty : w.leaf = []
  · have hentries : entries = [] := by_contra fun hne => h.pending hne hempty
    have hleaves : leaves = [] := by
      have hsplit := h.split
      rw [hempty, hentries, List.append_nil, eq_comm, List.flatten_eq_nil_iff] at hsplit
      exact List.eq_nil_iff_forall_not_mem.mpr fun leaf hleaf =>
        (h.leafy leaf hleaf).nonempty (hsplit leaf hleaf)
    have hlevel := h.level
    subst hleaves hentries
    rw [IndexWriter.flushLeaf, hempty]
    refine ⟨[], [], rfl, hw, ?_, fun file _ => ⟨⟨0, ?_⟩, fun _ h => nomatch h⟩⟩
    · rw [hlevel]
      exact List.forall_mem_nil _
    · rw [hlevel]
      exact .nil _
  · have hleafy : Leafy w.leaf := ⟨hempty, h.capacity⟩
    have hnext : w.next = base + 1 + leaves.length := by rw [hw.next, length_leafPages]
    have hflatten : (leaves ++ [w.leaf]).flatten = entries := by simp [h.split]
    have hlevel : w.level ++ [(firstKey w.leaf, w.next)] =
        leafLevel (base + 1) (leaves ++ [w.leaf]) := by
      rw [leafLevel_concat, h.level, hnext]
    rw [flushLeaf_eq hempty]
    refine ⟨leaves ++ [w.leaf], leafPages lsn (base + 1) leaves ++
      [checksummed (leafPage (base + 1 + leaves.length) lsn 0 w.leaf)], hflatten,
      hw.snoc ?_ rfl rfl rfl, ?_, ?_⟩
    · rw [hw.lsn, hnext]
    · intro c hc
      rw [hlevel] at hc
      have := mem_leafLevel hc
      rw [List.length_append, List.length_singleton] at this
      dsimp only
      omega
    · intro file hcontains
      rw [← hflatten] at hfits hascending
      obtain ⟨-, hforest, hreadable⟩ := forest_of_leafPages (Nat.succ_ne_zero base) hlsn h.leafy
        hleafy hfits hascending hcontains
      refine ⟨⟨0, ?_⟩, ?_⟩
      · dsimp only
        rwa [hlevel]
      · rwa [List.length_append, length_leafPages]

/-- The metadata page is written into the room left for it. -/
theorem Written.write_meta (h : Written old lsn base pages w)
    (hold : old.length = base * pageSize) (page : PageBytes) :
    Buffer.write w.file (base * pageSize) page.1 = old ++ joined (page :: pages) := by
  have hpage : page.1.length = pageSize := page.2
  have hroom : (List.replicate pageSize (0 : UInt8)).length = pageSize := List.length_replicate
  have hfront : (old ++ List.replicate pageSize 0).length = base * pageSize + pageSize := by
    rw [List.length_append, hold, hroom]
  rw [h.file, ← List.append_assoc, Buffer.write_eq, hpage, List.drop_left' hfront,
    List.append_assoc, List.take_left' hold, joined_cons]
  rw [List.length_append, hfront, hpage]
  exact Nat.le_add_right _ _

/-- **A finished tree** is one level that names at most one page, under a metadata page that
names it. -/
theorem Raised.holds (hlsn : lsn < 2 ^ 64) (h : Raised old lsn base leaves w pages)
    (hroot : w.level.length ≤ 1) {file : Bytes} (hwhole : file.length % pageSize = 0)
    (hcontains : Contains file base (checksummed
      (metaPage base lsn ((w.level.head?.map Prod.snd).getD 0) w.count) :: pages)) :
    Holds file lsn base leaves ∧ Readable file lsn base (pages.length + 1) := by
  obtain ⟨hmeta, hpages⟩ := hcontains
  obtain ⟨⟨height, hforest⟩, hreadable⟩ := h.forest file hpages
  have hids := h.ids
  rcases hlevel : w.level with _ | ⟨⟨key, root⟩, rest⟩
  · rw [hlevel] at hmeta hforest
    obtain ⟨node, hdecode, hreads⟩ :=
      decode_metaPage (lt_of_pageAt hmeta) hlsn (by decide) (Or.inl rfl)
    have hread := readNode_of_pageAt hmeta hdecode hreads.lsn
    cases hforest
    exact ⟨⟨hwhole, node, hread, hreads.kind, Or.inl ⟨hreads.next, rfl⟩⟩,
      .cons ⟨node, hread⟩ hreadable⟩
  · rw [hlevel, List.length_cons] at hroot
    obtain rfl : rest = [] := List.eq_nil_of_length_eq_zero (by omega)
    rw [hlevel] at hmeta hforest hids
    have hbounds := hids (key, root) (List.mem_singleton_self _)
    cases hforest with
    | cons first tree rest =>
    cases rest
    rw [List.append_nil] at tree
    -- the root can be read, so its number can be written
    have hlt : root < 2 ^ 64 := by
      have hend := h.written.next ▸ hbounds.2
      obtain ⟨_, hread⟩ := hreadable.of_le hbounds.1 hend
      exact lt_of_readNode hread
    obtain ⟨node, hdecode, hreads⟩ :=
      decode_metaPage (lt_of_pageAt hmeta) hlsn hlt (Or.inr hbounds.1)
    have hread := readNode_of_pageAt hmeta hdecode hreads.lsn
    rw [List.append_nil]
    refine ⟨⟨hwhole, node, hread, hreads.kind, Or.inr ⟨height, ?_⟩⟩, .cons ⟨node, hread⟩ hreadable⟩
    rw [hreads.next]
    exact tree

end Finish

/-! ### The tree and the map -/

/-- The tree that begins at `base` answers every query as the sorted list of the entries. -/
structure Answers (file : Bytes) (lsn base : ℕ) (entries : List Entry) : Prop where
  lookup : ∀ key, lookupAt file lsn base key =
    .ok ((SortedList.lookup order (toLex key) entries).map Prod.snd)
  floor : ∀ key, floorAt file lsn base key = .ok (SortedList.floor order (toLex key) entries)
  scan : ∀ lower upper, ∃ cursor, scanAt file lsn base lower upper = .ok cursor ∧ ∀ i,
    cursor.nth i =
      ((SortedList.range order (toLex lower) (toLex upper) entries)[i]?).map .ok

theorem answers_of_holds {file : Bytes} {lsn base : ℕ} {leaves : List (List Entry)}
    (h : Holds file lsn base leaves) (hascending : SortedList.Ascending order leaves.flatten) :
    Answers file lsn base leaves.flatten where
  lookup := h.lookupAt hascending
  floor := h.floorAt hascending
  scan := h.scanAt hascending

/-- **What finishing a tree makes of a file.** The tree is put behind what was there; in every
file that has it at its base, whatever is in front of it or behind, every page of the tree can be
read and every query is answered from the entries. -/
theorem Filled.finishPart {old : Bytes} {lsn base : ℕ} {entries : List Entry} {w : IndexWriter}
    {leaves : List (List Entry)} (h : Filled old lsn base entries w leaves)
    (hold : old.length = base * pageSize) (hlsn : lsn < 2 ^ 64)
    (hfits : ∀ e ∈ entries, Fits e.1 ∧ Fits e.2)
    (hascending : SortedList.Ascending order entries) :
    ∃ tree pages, w.finishPart = old ++ tree ∧ tree.length = pages * pageSize ∧
      ∀ before after, before.length = base * pageSize → after.length % pageSize = 0 →
        (before ++ (tree ++ after)).length ≤ maxU64 →
        Readable (before ++ (tree ++ after)) lsn base pages ∧
          Answers (before ++ (tree ++ after)) lsn base entries := by
  obtain ⟨leaves', pages, rfl, hraised⟩ := h.flushLeaf hlsn hfits hascending
  obtain ⟨pages, hraised, hroot⟩ := hraised.writeLevels hlsn hascending hfits
  set w' := (w.flushLeaf 0).writeLevels with hw'
  let root := (w'.level.head?.map Prod.snd).getD 0
  let written := checksummed (metaPage base lsn root w'.count) :: pages
  have hfinish : w.finishPart = old ++ joined written := by
    rw [IndexWriter.finishPart, ← hw', hraised.written.base, hraised.written.lsn]
    exact hraised.written.write_meta hold _
  refine ⟨joined written, written.length, hfinish, length_joined written, ?_⟩
  intro before after hbefore hafter hlen
  have hwhole : (before ++ (joined written ++ after)).length % pageSize = 0 := by
    rw [List.length_append, List.length_append, hbefore, length_joined, ← Nat.add_assoc,
      ← Nat.add_mul, Nat.mul_add_mod_self_right, hafter]
  obtain ⟨hholds, hreadable⟩ :=
    hraised.holds hlsn hroot hwhole (contains_of_joined hbefore hlen)
  exact ⟨hreadable, answers_of_holds hholds hascending⟩

/-- **A bulk-built index is the map it was built from.** Entries in order are all added, and one
whose key is not above the last is refused without a change. The finished file is the old one
with a tree behind it; in every file that has the tree at its base, whatever is in front of it
or behind, every page of the tree can be read and every query is answered from the entries. -/
theorem answers_as_entries {old : Bytes} {lsn base : ℕ} {entries : List Entry}
    (hold : old.length = base * pageSize) (hlsn : lsn < 2 ^ 64)
    (hfits : ∀ e ∈ entries, Fits e.1 ∧ Fits e.2)
    (hascending : SortedList.Ascending order entries) :
    ∃ w, appendAll entries (fromFile old lsn base) = .ok w ∧
      (∀ last ∈ entries.getLast?, ∀ key value, toLex key ≤ order last →
        w.append key value = (corrupt "index keys are not strictly ordered", w)) ∧
      ∃ tree pages, w.finishPart = old ++ tree ∧ tree.length = pages * pageSize ∧
        ∀ before after, before.length = base * pageSize → after.length % pageSize = 0 →
          (before ++ (tree ++ after)).length ≤ maxU64 →
          Readable (before ++ (tree ++ after)) lsn base pages ∧
            Answers (before ++ (tree ++ after)) lsn base entries := by
  obtain ⟨w, leaves, happend, hfilled⟩ :=
    (@filled_fromFile old lsn base).appendAll (by rwa [List.nil_append])
  rw [List.nil_append] at hfilled
  exact ⟨w, happend, fun last hlast key value hle => hfilled.append_of_le hlast hle value,
    hfilled.finishPart hold hlsn hfits hascending⟩

/-- A tree of two entries behind a page that belongs to another one. -/
theorem answers_as_entries_pair :
    ∃ w, appendAll [((1, 1), (10, 0)), ((1, 2), (20, 0))]
        (fromFile (List.replicate pageSize 0) 7 1) = .ok w ∧
      w.append (1, 2) (30, 0) = (corrupt "index keys are not strictly ordered", w) ∧
      lookupAt w.finishPart 7 1 (1, 2) = .ok (some (20, 0)) ∧
      lookupAt w.finishPart 7 1 (1, 3) = .ok none ∧
      floorAt w.finishPart 7 1 (2, 0) = .ok (some ((1, 2), (20, 0))) := by
  obtain ⟨w, happend, hrefused, tree, pages, hfinish, -, hanswers⟩ :=
    @answers_as_entries (List.replicate pageSize 0) 7 1 [((1, 1), (10, 0)), ((1, 2), (20, 0))]
      (by rw [List.length_replicate, Nat.one_mul]) (by decide)
      (by simp [Fits]) (by simp [SortedList.Ascending, order, Prod.Lex.toLex_lt_toLex])
  have hw : w = { fromFile (List.replicate pageSize 0) 7 1 with
      leaf := [((1, 1), (10, 0)), ((1, 2), (20, 0))], previous := some (1, 2), count := 2 } :=
    (Except.ok.inj happend).symm
  have hlen : w.finishPart.length ≤ maxU64 := by
    rw [hw, finishPart, Buffer.length_write, flushLeaf_eq (List.cons_ne_nil _ _), writeLevels,
      if_neg (by decide)]
    simp only [fromFile, List.length_append, List.length_replicate, (checksummed _).2]
    decide
  have hsplit : w.finishPart = List.replicate pageSize 0 ++ (tree ++ []) := by
    rw [hfinish, List.append_nil]
  obtain ⟨-, hlookup, hfloor, -⟩ := hanswers (List.replicate pageSize 0) []
    (by rw [List.length_replicate, Nat.one_mul]) rfl (hsplit ▸ hlen)
  refine ⟨w, happend, hrefused _ rfl _ _ (by decide), ?_, ?_, ?_⟩
  · rw [hsplit, hlookup]
    rfl
  · rw [hsplit, hlookup]
    rfl
  · rw [hsplit, hfloor]
    rfl

end IndexWriter

end Index

end EveDB
