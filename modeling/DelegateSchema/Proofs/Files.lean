/-
  DelegateSchema.Proofs.Files — what may be relied on when files are read and written.

  Above the host layer only two things are taken for granted: reading changes nothing, and a file
  that was written is read back.  A file tree keeps to both.  The second needs an argument, because
  the path is followed again in the changed tree: it leads through folders only, and the new file
  stands where no folder was.

  Main results:
    * `FileTree.readBytes_writeBytes` — a file that was written is read back,
    * `treeHost_faithful` — the operations of a file tree are faithful,
    * `Tool.installedVersion_keeps` — looking up the installed version changes nothing.
-/
import DelegateSchema.Host.FileTree
import DelegateSchema.Proofs.Identifiers
import DelegateSchema.Tool.Version

namespace DelegateSchema

/-! ## §1. Faithful hosts -/

/-- Reading changes nothing, and what was written is read. -/
structure Host.Faithful {σ : Type} (host : Host (StateM σ)) : Prop where
  readBytes_keeps : ∀ path w, (host.readBytes path w).2 = w
  readBytes_written : ∀ path content w w', host.writeText path content w = (.ok (), w') →
    (host.readBytes path w').1 = .ok content.toUTF8

theorem stateM_pure {σ α : Type} (a : α) (w : σ) : (pure a : StateM σ α) w = (a, w) := rfl

theorem stateM_bind {σ α β : Type} (x : StateM σ α) (f : α → StateM σ β) (w : σ) :
    (x >>= f) w = f (x w).1 (x w).2 := rfl

namespace Host

/-! ## §2. Places of a file tree -/

namespace FileTree

variable {t : FileTree} {place : List String}

theorem lookup_replace (entries : List (List String × Entry)) (place other : List String)
    (e : Entry) :
    (entries.map fun old => if old.1 = place then (place, e) else old).lookup other =
      if other = place then (entries.lookup place).map fun _ => e else entries.lookup other := by
  induction entries with
  | nil => simp
  | cons old entries ih =>
    rw [List.map_cons]
    by_cases here : old.1 = place
    · rw [if_pos here, List.lookup_cons, ih, List.lookup_cons, List.lookup_cons, here]
      by_cases same : other = place
      · simp [same]
      · simp [same, beq_false_of_ne same]
    · rw [if_neg here, List.lookup_cons, ih, List.lookup_cons, List.lookup_cons]
      by_cases same : other = place
      · simp [same, beq_false_of_ne (Ne.symm here)]
      · simp [same]

theorem lookup_put (t : FileTree) (place : List String) (e : Entry) (other : List String) :
    (t.put place e).entries.lookup other =
      if other = place then some e else t.entries.lookup other := by
  unfold put
  dsimp only
  split
  next there =>
    obtain ⟨old, found⟩ := Option.isSome_iff_exists.1 there
    rw [lookup_replace, found]
    rfl
  next missing =>
    have missing := Option.not_isSome_iff_eq_none.1 missing
    rw [List.lookup_append]
    by_cases same : other = place
    · simp [same, missing]
    · simp [same, List.lookup_cons, beq_false_of_ne same]

theorem at?_put (t : FileTree) (nonroot : place ≠ []) (e : Entry) (other : List String) :
    (t.put place e).at? other = if other = place then some e else t.at? other := by
  unfold at?
  rw [lookup_put]
  by_cases same : other = place
  · simp [same, nonroot]
  · simp [same]

/-- A way through folders does not meet a file that is put where no folder is. -/
theorem enter_put (nonroot : place ≠ []) (free : t.at? place ≠ some .folder) (content : ByteArray)
    {folder names dest : List String} (h : t.enter folder names = .ok dest) :
    (t.put place (.file content)).enter folder names = .ok dest := by
  fun_induction enter t folder names with
  | case1 folder => exact h
  | case2 folder rest ih =>
    unfold enter
    rw [if_pos rfl]
    exact ih h
  | case3 folder rest _ ih =>
    unfold enter
    rw [if_neg (by decide), if_pos rfl]
    exact ih h
  | case4 => cases h
  | case5 => cases h
  | case6 folder name rest dot dots found ih =>
    -- the only step that looks at the tree: it goes into a folder, and `place` does not hold one
    have apart : folder ++ [name] ≠ place := by
      rintro rfl
      exact free found
    unfold enter
    rw [if_neg dot, if_neg dots, at?_put t nonroot, if_neg apart, found]
    exact ih h

theorem locate_put (nonroot : place ≠ []) (free : t.at? place ≠ some .folder) (content : ByteArray)
    {path : String} {target : Target} (h : t.locate path = .ok target) :
    (t.put place (.file content)).locate path = .ok target := by
  unfold locate at h ⊢
  split at h
  next => cases h
  next given =>
    rw [if_neg given]
    dsimp only at h ⊢
    split at h
    next => exact h
    next last before _ =>
      obtain ⟨folder, entered, h⟩ := bind_ok_iff.1 h
      exact bind_ok_iff.2 ⟨folder, enter_put nonroot free content entered, h⟩

theorem readBytes_of_file {path : String} {target : Target} {content : ByteArray}
    (located : t.locate path = .ok target) (asFile : target.asFolder = false)
    (found : t.at? target.place = some (.file content)) : t.readBytes path = .ok content := by
  have entry : t.entry path = .ok (.file content) := by
    unfold entry
    refine bind_ok_iff.2 ⟨target, located, ?_⟩
    rw [found]
    simp [asFile, pure, Except.pure]
  unfold readBytes
  rw [entry]
  rfl

/-- **A file that was written is read back.** -/
theorem readBytes_writeBytes {t' : FileTree} {path : String} {content : ByteArray}
    (h : t.writeBytes path content = .ok t') : t'.readBytes path = .ok content := by
  unfold writeBytes at h
  obtain ⟨target, located, h⟩ := bind_ok_iff.1 h
  split at h
  next => cases h
  next named =>
    obtain ⟨asFile, named⟩ : target.asFolder = false ∧ ¬target.name = none := by simpa using named
    obtain ⟨name, named⟩ := Option.ne_none_iff_exists'.1 named
    have nonroot : target.place ≠ [] := by simp [Target.place, named]
    split at h
    next => cases h
    next free =>
      cases pure_ok_iff.1 h
      -- the path leads to the same place in the new tree, and there stands the file
      refine readBytes_of_file (locate_put nonroot free content located) asFile ?_
      rw [at?_put t nonroot, if_pos rfl]

end FileTree

theorem treeHost_faithful (programs : FileTree.Programs) : (treeHost programs).Faithful where
  readBytes_keeps _ _ := rfl
  readBytes_written path content t t' h := by
    unfold treeHost treeHost.settle at h
    dsimp only at h
    split at h
    next t' written =>
      cases h
      exact FileTree.readBytes_writeBytes written
    next => cases h

end Host

/-! ## §3. The installed version -/

namespace Tool

variable {σ : Type} {host : Host (StateM σ)}

theorem readText_keeps (faithful : host.Faithful) (path : String) (w : σ) :
    (host.readText path w).2 = w := by
  unfold Host.readText
  rw [stateM_bind, faithful.readBytes_keeps]
  cases (host.readBytes path w).1 with
  | error cause => rfl
  | ok bytes =>
    dsimp only
    cases String.fromUTF8? bytes with
    | none => rfl
    | some text => rfl

theorem firstVersion_keeps (faithful : host.Faithful) (paths : List String) (w : σ) :
    (firstVersion host paths w).2 = w := by
  induction paths with
  | nil => rfl
  | cons path rest ih =>
    unfold firstVersion
    rw [stateM_bind, readText_keeps faithful]
    cases (host.readText path w).1 with
    | error cause => exact ih
    | ok text =>
      dsimp only
      cases manifestVersion? text with
      | none => exact ih
      | some version => rfl

/-- **Looking up the installed version changes nothing.** -/
theorem installedVersion_keeps (faithful : host.Faithful) (root : String) (w : σ) :
    (installedVersion host root w).2 = w :=
  firstVersion_keeps faithful (manifests root) w

end Tool

end DelegateSchema
