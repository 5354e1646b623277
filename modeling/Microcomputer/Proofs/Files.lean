import Mathlib.Data.List.Infix
import Microcomputer.Files
import Microcomputer.Proofs.Outcome

/-!
# What files keep

A file that was written is read as it was written, also after files elsewhere have been written. A directory
that is a plain value is such a file system.
-/

namespace Microcomputer

/-! ## Laws -/

/-- What a file system does to its files. Reading leaves them alone. A file is read as it was written, and
whatever can be read stays while a file apart from it is written. Two paths are apart if they are those of
different files. -/
structure FileSystem.Lawful {σ : Type} (files : FileSystem (StateM σ)) (apart : String → String → Prop) :
    Prop where
  keeps (path : String) (s : σ) : ((files.read path).run s).2 = s
  read_of_write {path : String} {contents : List UInt8} {s s' : σ} :
    (files.write path contents).run s = (.ok (), s') → ((files.read path).run s').1 = .ok contents
  read_of_apart {path other : String} {contents bytes : List UInt8} {s s' : σ} :
    apart path other → (files.write other contents).run s = (.ok (), s') →
      ((files.read path).run s).1 = .ok bytes → ((files.read path).run s').1 = .ok bytes

/-! ## Places -/

namespace Path

/-- The place that a path leads to from the working directory. -/
def ofText (text : String) : Path :=
  ofNames (names text)

variable {path place : Path} {name : String}

theorem isAnchor_iff : path.isAnchor ↔ path = ["/"] ∨ ∀ level ∈ path, level = ".." := by
  simp [isAnchor]

theorem isAnchor_above (h : place.isAnchor) (habove : path <+: place) : path.isAnchor := by
  rw [isAnchor_iff] at h ⊢
  rcases h with rfl | h
  · rcases List.prefix_cons_iff.mp habove with rfl | ⟨rest, rfl, hrest⟩
    · exact .inr (List.forall_mem_nil _)
    · exact .inl (congrArg _ (List.prefix_nil.mp hrest))
  · exact .inr fun level hlevel => h level (habove.subset hlevel)

/-- A name stays, or leads one level up or down. -/
theorem enter_cases (path : Path) (name : String) :
    path.enter name = path ∨ path.enter name = path.dropLast ∨ ∃ level, path.enter name = path ++ [level] := by
  unfold enter
  split
  · exact .inl rfl
  split
  · split
    · exact .inl rfl
    split
    · exact .inr (.inr ⟨"..", rfl⟩)
    · exact .inr (.inl rfl)
  · exact .inr (.inr ⟨name, rfl⟩)

theorem prefix_of_enter (h : place <+: path.enter name) (hne : place ≠ path.enter name) :
    place <+: path := by
  rcases path.enter_cases name with heq | heq | ⟨level, heq⟩
  · rwa [heq] at h
  · rw [heq] at h
    exact h.trans (List.dropLast_prefix path)
  · rw [heq] at h hne
    exact (List.prefix_concat_iff.mp h).resolve_left hne

end Path

/-! ## Directories -/

namespace Directory

variable {dir dir' : Directory} {path place : Path} {name text : String} {names : List String}
  {contents bytes : List UInt8}

theorem hasDirectory_iff : dir.hasDirectory path ↔
    path.isAnchor ∨ ∃ file ∈ dir.files, path <+: file.1 ∧ path ≠ file.1 := by
  simp [hasDirectory]

/-- Whatever lies above a directory is one. -/
theorem hasDirectory_upward (h : dir.hasDirectory place) (habove : path <+: place) :
    dir.hasDirectory path := by
  rw [hasDirectory_iff] at h ⊢
  rcases h with h | ⟨file, hfile, hbelow, hne⟩
  · exact .inl (Path.isAnchor_above h habove)
  · refine .inr ⟨file, hfile, habove.trans hbelow, ?_⟩
    rintro rfl
    exact hne (hbelow.eq_of_length_le habove.length_le)

/-! ## Putting a file -/

theorem mem_put {file : Path × List UInt8} : file ∈ (dir.put place contents).files ↔
    file = (place, contents) ∨ file ∈ dir.files ∧ file.1 ≠ place := by
  simp [put]

theorem hasDirectory_put : (dir.put place contents).hasDirectory path ↔
    dir.hasDirectory path ∨ path <+: place ∧ path ≠ place := by
  simp only [hasDirectory_iff, mem_put]
  constructor
  · rintro (h | ⟨file, rfl | ⟨hfile, -⟩, hbelow⟩)
    · exact .inl (.inl h)
    · exact .inr hbelow
    · exact .inl (.inr ⟨file, hfile, hbelow⟩)
  · rintro ((h | ⟨file, hfile, hbelow⟩) | hbelow)
    · exact .inl h
    · by_cases heq : file.1 = place
      · exact .inr ⟨(place, contents), .inl rfl, heq ▸ hbelow⟩
      · exact .inr ⟨file, .inr ⟨hfile, heq⟩, hbelow⟩
    · exact .inr ⟨(place, contents), .inl rfl, hbelow⟩

theorem find?_put_self : (dir.put place contents).find? place = some contents := by
  simp [find?, put]

theorem find?_put_of_ne (h : path ≠ place) : (dir.put place contents).find? path = dir.find? path := by
  have hother : ∀ file : Path × List UInt8,
      decide ((file.1 != place) = true ∧ (file.1 == path) = true) = (file.1 == path) := by
    intro file
    by_cases heq : file.1 = path
    · simp [heq, h]
    · simp [heq]
  simp only [find?, put, List.find?_cons, List.find?_filter, beq_eq_false_iff_ne.mpr h.symm, hother]

/-! ## Following names -/

theorem enter_eq_ok_iff : dir.enter path name = .ok place ↔
    dir.hasDirectory path ∧ name.utf8ByteSize ≤ Path.maxNameSize ∧ path.enter name = place := by
  unfold enter
  split
  next h => simp_all
  next h =>
    split
    next hlong => simp [Nat.not_le.mpr hlong]
    next hlong => simp_all

theorem follow_concat_eq_ok_iff : dir.follow (names ++ [name]) = .ok place ↔
    ∃ path, dir.follow names = .ok path ∧ dir.enter path name = .ok place := by
  simp only [follow, List.foldlM_append, bind_eq_ok_iff, List.foldlM_cons, List.foldlM_nil, pure, Except.pure,
    Except.ok.injEq, exists_eq_right]

theorem ofNames_of_follow (h : dir.follow names = .ok place) : Path.ofNames names = place := by
  induction names using List.reverseRecOn generalizing place with
  | nil => exact Except.ok.inj h
  | append_singleton names name ih =>
    obtain ⟨path, hpath, henter⟩ := follow_concat_eq_ok_iff.mp h
    obtain ⟨-, -, rfl⟩ := enter_eq_ok_iff.mp henter
    rw [← ih hpath, Path.ofNames, List.foldl_concat]
    rfl

/-- A file more is in nobody's way. -/
theorem follow_put (h : dir.follow names = .ok path) : (dir.put place contents).follow names = .ok path := by
  induction names using List.reverseRecOn generalizing path with
  | nil => exact h
  | append_singleton names name ih =>
    obtain ⟨above, habove, henter⟩ := follow_concat_eq_ok_iff.mp h
    obtain ⟨hdirectory, hname⟩ := enter_eq_ok_iff.mp henter
    exact follow_concat_eq_ok_iff.mpr
      ⟨above, ih habove, enter_eq_ok_iff.mpr ⟨hasDirectory_put.mpr (.inl hdirectory), hname⟩⟩

theorem hasDirectory_above (h : dir.follow names = .ok place) (habove : path <+: place) (hne : path ≠ place) :
    dir.hasDirectory path := by
  rcases List.eq_nil_or_concat names with rfl | ⟨names, name, rfl⟩
  · obtain rfl := Except.ok.inj h
    exact absurd (List.prefix_nil.mp habove) hne
  · rw [List.concat_eq_append] at h
    obtain ⟨above, -, henter⟩ := follow_concat_eq_ok_iff.mp h
    obtain ⟨hdirectory, -, rfl⟩ := enter_eq_ok_iff.mp henter
    exact hasDirectory_upward hdirectory (Path.prefix_of_enter habove hne)

/-! ## Reading and writing -/

theorem names_of_namesOf (h : namesOf text = .ok names) : Path.names text = names := by
  unfold namesOf at h
  split at h
  · cases h
  split at h
  · cases h
  · exact Except.ok.inj h

/-- A file is written where its path leads, unless there is a directory. -/
theorem write_eq_ok_iff : dir.write text contents = .ok dir' ↔
    ∃ names, namesOf text = .ok names ∧ text.endsWith "/" = false ∧
      ∃ place, dir.follow names = .ok place ∧ dir.hasDirectory place = false ∧ dir.put place contents = dir' := by
  unfold write
  rw [bind_eq_ok_iff]
  refine exists_congr fun names => and_congr_right fun _ => ?_
  cases text.endsWith "/" with
  | true =>
    simp [bind_eq_ok_iff, throw, throwThe, MonadExceptOf.throw]
  | false =>
    simp only [Bool.false_eq_true, if_false, bind_eq_ok_iff, true_and]
    refine exists_congr fun place => and_congr_right fun _ => ?_
    cases dir.hasDirectory place with
    | true => simp [throw, throwThe, MonadExceptOf.throw, bind, Except.bind]
    | false => simp [pure, Except.pure]

/-- A file is read where its path leads. -/
theorem read_eq_ok_iff : dir.read text = .ok bytes ↔
    ∃ names, namesOf text = .ok names ∧
      ∃ place, dir.follow (if text.endsWith "/" then names ++ ["."] else names) = .ok place ∧
        dir.hasDirectory place = false ∧ dir.find? place = some bytes := by
  unfold read
  rw [bind_eq_ok_iff]
  refine exists_congr fun names => and_congr_right fun _ => ?_
  rw [bind_eq_ok_iff]
  refine exists_congr fun place => and_congr_right fun _ => ?_
  cases dir.hasDirectory place with
  | true => simp [throw, throwThe, MonadExceptOf.throw, bind, Except.bind]
  | false => cases dir.find? place <;> simp [throw, throwThe, MonadExceptOf.throw, pure, Except.pure]

theorem read_of_write (h : dir.write text contents = .ok dir') : dir'.read text = .ok contents := by
  obtain ⟨names, hnames, hend, place, hfollow, hfree, rfl⟩ := write_eq_ok_iff.mp h
  refine read_eq_ok_iff.mpr ⟨names, hnames, place, ?_, ?_, find?_put_self⟩
  · rw [hend]
    exact follow_put hfollow
  · rw [Bool.eq_false_iff] at hfree ⊢
    exact fun hput => (hasDirectory_put.mp hput).elim hfree fun hbelow => hbelow.2 rfl

theorem ofText_of_follow (hnames : namesOf text = .ok names)
    (h : dir.follow (if text.endsWith "/" then names ++ ["."] else names) = .ok place) :
    Path.ofText text = place := by
  rw [Path.ofText, names_of_namesOf hnames, ← ofNames_of_follow h]
  split
  · rw [Path.ofNames, Path.ofNames, List.foldl_concat]
    rfl
  · rfl

/-- Writing a file changes no other: no file becomes a directory, and what lies elsewhere stays. -/
theorem read_of_write_of_ne {other : String} (hne : Path.ofText text ≠ Path.ofText other)
    (h : dir.write other contents = .ok dir') (hread : dir.read text = .ok bytes) :
    dir'.read text = .ok bytes := by
  obtain ⟨names, hnames, -, place, hfollow, -, rfl⟩ := write_eq_ok_iff.mp h
  obtain ⟨names', hnames', path, hpath, hfile, hbytes⟩ := read_eq_ok_iff.mp hread
  rw [ofText_of_follow hnames' hpath, Path.ofText, names_of_namesOf hnames, ofNames_of_follow hfollow] at hne
  refine read_eq_ok_iff.mpr ⟨names', hnames', path, follow_put hpath, ?_, ?_⟩
  · rw [Bool.eq_false_iff] at hfile ⊢
    intro hput
    rcases hasDirectory_put.mp hput with hdirectory | ⟨habove, -⟩
    · exact hfile hdirectory
    · exact hfile (hasDirectory_above hfollow habove hne)
  · rw [find?_put_of_ne hne, hbytes]

end Directory

/-! ## The file system of a directory -/

theorem FileSystem.write_ofDirectory_eq_ok_iff {path : String} {contents : List UInt8} {dir dir' : Directory} :
    (ofDirectory.write path contents).run dir = (.ok (), dir') ↔ dir.write path contents = .ok dir' := by
  simp only [ofDirectory, StateT.run_bind, StateT.run_get, pure_bind]
  cases dir.write path contents with
  | ok written => exact ⟨fun h => congrArg Except.ok (congrArg Prod.snd h), fun h => congrArg _ (Except.ok.inj h)⟩
  | error e => exact iff_of_false (fun h => nomatch congrArg Prod.fst h) nofun

/-- A directory keeps what is written to places apart from each other. -/
theorem FileSystem.ofDirectory_lawful :
    ofDirectory.Lawful fun path other => Path.ofText path ≠ Path.ofText other where
  keeps _ _ := rfl
  read_of_write h := Directory.read_of_write (write_ofDirectory_eq_ok_iff.mp h)
  read_of_apart hne h hread := Directory.read_of_write_of_ne hne (write_ofDirectory_eq_ok_iff.mp h) hread

end Microcomputer
