import Mathlib
import Microcomputer.Proofs.Control.Address
import Microcomputer.Proofs.Files

/-!
# Images of the control store

The two banks of a control store and its words determine each other: every pair of bytes makes a word, and the
words of a store give back its banks. So nothing is lost in words, in changes or in files.
-/

namespace Microcomputer.Control

/-! ## The bits of a word -/

namespace Word

/-- The sixteen bits of a stored word, bank 0 in the low half. -/
def stored (byte0 byte1 : UInt8) : BitVec 16 :=
  byte1.toBitVec ++ byte0.toBitVec

/-- The sixteen bits of a word, its fields side by side. -/
def pack (w : Word) : BitVec 16 :=
  BitVec.ofBool w.carryIn ++ BitVec.ofBool w.logic ++ w.select ++ BitVec.ofNat 2 w.pointer.code ++
    BitVec.ofNat 1 w.side.code ++ BitVec.ofNat 4 w.sink.code ++ BitVec.ofNat 3 w.source.code

/-- The word in sixteen bits, none if a field has a code that names nothing. -/
def unpack? (bits : BitVec 16) : Option Word := do
  let source ← Coded.ofCode? (bits.extractLsb' 0 3).toNat
  let sink ← Coded.ofCode? (bits.extractLsb' 3 4).toNat
  let side ← Coded.ofCode? (bits.extractLsb' 7 1).toNat
  let pointer ← Coded.ofCode? (bits.extractLsb' 8 2).toNat
  return { source, sink, side, pointer, select := bits.extractLsb' 10 4, logic := bits.getLsbD 14,
           carryIn := bits.getLsbD 15 }

/-- A decoder that is total finds a member for every code. -/
theorem ofCode?_mod {α : Type} [Coded α] {ofBits : Nat → α} {count : Nat} (hpos : 0 < count)
    (hmod : ∀ n, ofBits (n % count) = ofBits n)
    (hall : ∀ code < count, Coded.ofCode? code = some (ofBits code)) (n : Nat) :
    Coded.ofCode? (n % count) = some (ofBits n) := by
  rw [hall _ (Nat.mod_lt n hpos), hmod]

theorem toNat_append {m n : Nat} (high : BitVec m) (low : BitVec n) :
    (high ++ low).toNat = high.toNat <<< n + low.toNat := by
  rw [BitVec.toNat_append, ← Nat.shiftLeft_add_eq_or_of_lt low.isLt]

theorem toNat_stored (byte0 byte1 : UInt8) : (stored byte0 byte1).toNat = byte1.toNat * 256 + byte0.toNat := by
  rw [stored, toNat_append, Nat.shiftLeft_eq]
  rfl

theorem toNat_field (byte0 byte1 : UInt8) (first width : Nat) :
    ((stored byte0 byte1).extractLsb' first width).toNat =
      (byte1.toNat * 256 + byte0.toNat) / 2 ^ first % 2 ^ width := by
  rw [BitVec.extractLsb'_toNat, toNat_stored, Nat.shiftRight_eq_div_pow]

theorem getLsbD_stored (byte0 byte1 : UInt8) (k : Nat) :
    (stored byte0 byte1).getLsbD k = ((byte1.toNat * 256 + byte0.toNat) / 2 ^ k % 2 == 1) := by
  rw [BitVec.getLsbD, toNat_stored, Nat.testBit_eq_decide_div_mod_eq, Bool.beq_eq_decide_eq]

/-- No code is missing, so every pair of bytes makes a word. -/
theorem unpack?_stored (byte0 byte1 : UInt8) : unpack? (stored byte0 byte1) = some (ofBanks byte0 byte1) := by
  have h0 := byte0.toNat_lt
  have h1 := byte1.toNat_lt
  have hsource : ((stored byte0 byte1).extractLsb' 0 3).toNat = byte0.toNat % 8 := by
    rw [toNat_field]
    omega
  have hsink : ((stored byte0 byte1).extractLsb' 3 4).toNat = byte0.toNat / 8 % 16 := by
    rw [toNat_field]
    omega
  have hside : ((stored byte0 byte1).extractLsb' 7 1).toNat = byte0.toNat / 128 % 2 := by
    rw [toNat_field]
    omega
  have hpointer : ((stored byte0 byte1).extractLsb' 8 2).toNat = byte1.toNat % 4 := by
    rw [toNat_field]
    omega
  have hselect : (stored byte0 byte1).extractLsb' 10 4 = BitVec.ofNat 4 (byte1.toNat / 4) := by
    apply BitVec.eq_of_toNat_eq
    rw [toNat_field, BitVec.toNat_ofNat]
    omega
  have hlogic : (stored byte0 byte1).getLsbD 14 = (byte1.toNat / 64 % 2 == 1) := by
    rw [getLsbD_stored]
    congr 1
    omega
  have hcarryIn : (stored byte0 byte1).getLsbD 15 = (byte1.toNat / 128 == 1) := by
    rw [getLsbD_stored]
    congr 1
    omega
  rw [unpack?, hsource, hsink, hside, hpointer, hselect, hlogic, hcarryIn,
    ofCode?_mod (by decide) Source.ofBits_mod (by decide), ofCode?_mod (by decide) Sink.ofBits_mod (by decide),
    ofCode?_mod (by decide) Side.ofBits_mod (by decide),
    ofCode?_mod (by decide) Pointer.ofBits_mod (by decide)]
  rfl

/-- The two stored bytes hold the fields side by side, without gaps. -/
theorem stored_toBanks (w : Word) : stored w.toBanks.1 w.toBanks.2 = w.pack := by
  have h1 := w.source.code_lt
  have h2 := w.sink.code_lt
  have h3 := w.side.code_lt
  have h4 := w.pointer.code_lt
  have h5 := w.select.isLt
  have h6 := w.logic.toNat_lt
  have h7 := w.carryIn.toNat_lt
  apply BitVec.eq_of_toNat_eq
  rw [toNat_stored]
  simp only [pack, toBanks, toNat_append, Nat.shiftLeft_eq, BitVec.toNat_ofNat, BitVec.toNat_ofBool,
    UInt8.toNat_ofNat']
  omega

end Word

namespace Store

/-! ## Decoding -/

/-- The word at an address, or the address if its bytes make none. -/
def decodeAt (store : Store) (a : Address) : Except Address Word :=
  match Word.unpack? (Word.stored (store.bank0.get a) (store.bank1.get a)) with
  | some w => .ok w
  | none => .error a

/-- All words in the order of their addresses, or the first address whose bytes make none. -/
def decode (store : Store) : Except Address (List Word) :=
  (List.finRange storeSize).mapM store.decodeAt

variable {store other : Store} {bytes bytes0 bytes1 : List UInt8} {bank : Nat} {e : ImageError}

theorem decodeAt_eq (store : Store) (a : Address) : store.decodeAt a = .ok (store.word a) := by
  rw [decodeAt, Word.unpack?_stored]
  rfl

theorem length_words (store : Store) : store.words.length = storeSize := by
  rw [words, List.length_zipWith, Vector.length_toList, Vector.length_toList, Nat.min_self]

theorem words_eq_map (store : Store) : store.words = (List.finRange storeSize).map store.word := by
  refine List.ext_getElem ?_ fun k hk _ => ?_
  · rw [length_words, List.length_map, List.length_finRange]
  · obtain ⟨_, hword⟩ := List.getElem?_eq_some_iff.mp (store.getElem?_words ⟨k, store.length_words ▸ hk⟩)
    rw [List.getElem_map, List.getElem_finRange]
    exact hword

theorem decode_eq (store : Store) : store.decode = .ok store.words := by
  rw [decode, words_eq_map, funext store.decodeAt_eq]
  exact List.mapM_pure

/-! ## Banks -/

theorem bankOf_eq_ok_iff {v : Vector UInt8 storeSize} : bankOf bank bytes = .ok v ↔ v.toList = bytes := by
  unfold bankOf
  split
  next =>
    rw [Except.ok.injEq]
    constructor
    · rintro rfl
      rfl
    · rintro rfl
      exact Vector.toList_inj.mp rfl
  next hlength =>
    refine iff_of_false nofun ?_
    rintro rfl
    exact hlength v.length_toList

theorem exists_bankOf_iff : (∃ v, bankOf bank bytes = .ok v) ↔ bytes.length = storeSize := by
  constructor
  · rintro ⟨v, hv⟩
    rw [← bankOf_eq_ok_iff.mp hv, Vector.length_toList]
  · exact fun h => ⟨_, dif_pos h⟩

theorem bankOf_eq_error_iff :
    bankOf bank bytes = .error e ↔ bytes.length ≠ storeSize ∧ .bankSize bank bytes.length = e := by
  unfold bankOf
  split <;> simp_all

theorem ofBanks_eq_ok_iff :
    ofBanks bytes0 bytes1 = .ok store ↔ store.bank0.toList = bytes0 ∧ store.bank1.toList = bytes1 := by
  simp only [ofBanks, bind_eq_ok_iff, bankOf_eq_ok_iff, pure, Except.pure, Except.ok.injEq]
  constructor
  · rintro ⟨bank0, h0, bank1, h1, rfl⟩
    exact ⟨h0, h1⟩
  · rintro ⟨h0, h1⟩
    exact ⟨store.bank0, h0, store.bank1, h1, rfl⟩

theorem exists_ofBanks_iff : (∃ store, ofBanks bytes0 bytes1 = .ok store) ↔
    bytes0.length = storeSize ∧ bytes1.length = storeSize := by
  constructor
  · rintro ⟨store, h⟩
    obtain ⟨rfl, rfl⟩ := ofBanks_eq_ok_iff.mp h
    exact ⟨store.bank0.length_toList, store.bank1.length_toList⟩
  · rintro ⟨h0, h1⟩
    exact ⟨⟨⟨bytes0.toArray, h0⟩, ⟨bytes1.toArray, h1⟩⟩, ofBanks_eq_ok_iff.mpr ⟨rfl, rfl⟩⟩

theorem ofBanks_eq_error_iff : ofBanks bytes0 bytes1 = .error e ↔
    bytes0.length ≠ storeSize ∧ .bankSize 0 bytes0.length = e ∨
    bytes0.length = storeSize ∧ bytes1.length ≠ storeSize ∧ .bankSize 1 bytes1.length = e := by
  simp only [ofBanks, bind_eq_error_iff, bankOf_eq_error_iff, pure, Except.pure, reduceCtorEq, and_false,
    exists_false, or_false, exists_and_right, exists_bankOf_iff]

/-- The words in order give the bytes of both banks, side by side. -/
theorem map_toBanks_words (store : Store) :
    store.words.map Word.toBanks = store.bank0.toList.zip store.bank1.toList := by
  rw [words, List.map_zipWith]
  simp only [Word.toBanks_ofBanks]
  rfl

theorem map_fst_toBanks_words (store : Store) :
    (store.words.map Word.toBanks).map Prod.fst = store.bank0.toList := by
  rw [map_toBanks_words, List.map_fst_zip (by simp)]

theorem map_snd_toBanks_words (store : Store) :
    (store.words.map Word.toBanks).map Prod.snd = store.bank1.toList := by
  rw [map_toBanks_words, List.map_snd_zip (by simp)]

theorem words_inj (h : other.words = store.words) : other = store := by
  have h0 : other.bank0.toList = store.bank0.toList := by
    rw [← map_fst_toBanks_words, h, map_fst_toBanks_words]
  have h1 : other.bank1.toList = store.bank1.toList := by
    rw [← map_snd_toBanks_words, h, map_snd_toBanks_words]
  cases other
  cases store
  exact Store.mk.injEq .. ▸ ⟨Vector.toList_inj.mp h0, Vector.toList_inj.mp h1⟩

/-! ## Changes -/

/-- The store after one change after another, each of an address and its bytes. -/
def edit (store : Store) (changes : List (Address × UInt8 × UInt8)) : Store :=
  changes.foldl (fun store change => store.set change.1 change.2.1 change.2.2) store

theorem word_set_self (store : Store) (a : Address) (byte0 byte1 : UInt8) :
    (store.set a byte0 byte1).word a = .ofBanks byte0 byte1 := by
  simp [word, set]

theorem word_set_of_ne {a b : Address} (h : b ≠ a) (store : Store) (byte0 byte1 : UInt8) :
    (store.set b byte0 byte1).word a = store.word a := by
  simp [word, set, Vector.getElem_set_ne, Fin.val_ne_of_ne h]

theorem word_edit_of_forall_ne {a : Address} {changes : List (Address × UInt8 × UInt8)}
    (h : ∀ change ∈ changes, change.1 ≠ a) : (store.edit changes).word a = store.word a := by
  induction changes generalizing store with
  | nil => rfl
  | cons change changes ih =>
    rw [List.forall_mem_cons] at h
    exact (ih h.2).trans (word_set_of_ne h.1 store _ _)

/-- The last change of an address counts. -/
theorem word_edit {a : Address} {byte0 byte1 : UInt8} {before after : List (Address × UInt8 × UInt8)}
    (h : ∀ change ∈ after, change.1 ≠ a) :
    (store.edit (before ++ (a, byte0, byte1) :: after)).word a = .ofBanks byte0 byte1 := by
  have hsplit : store.edit (before ++ (a, byte0, byte1) :: after) =
      (((store.edit before).set a byte0 byte1).edit after) := List.foldl_append
  rw [hsplit, word_edit_of_forall_ne h, word_set_self]

/-! ## Files -/

section

variable {σ : Type} {files : FileSystem (StateM σ)} {apart : String → String → Prop} {path0 path1 : String}
  {s s' : σ}

theorem run_bind {α β : Type} {x : StateM σ α} {f : α → StateM σ β} {a : α} (h : x.run s = (a, s')) :
    (x >>= f).run s = (f a).run s' := by
  rw [StateT.run_bind, h]
  rfl

theorem run_write_eq_ok_iff {path : String} {contents : List UInt8} {next : StateM σ (Except ImageError Unit)} :
    (files.write path contents >>= fun
        | .error e => pure (.error (.file e))
        | .ok () => next).run s = (.ok (), s') ↔
      ∃ s0, (files.write path contents).run s = (.ok (), s0) ∧ next.run s0 = (.ok (), s') := by
  rcases hwrite : (files.write path contents).run s with ⟨e | _, s0⟩
  · rw [run_bind hwrite]
    refine iff_of_false (fun h => nomatch congrArg Prod.fst h) ?_
    rintro ⟨_, h, -⟩
    cases congrArg Prod.fst h
  · rw [run_bind hwrite]
    refine ⟨fun h => ⟨s0, rfl, h⟩, ?_⟩
    rintro ⟨_, ⟨⟩, h⟩
    exact h

theorem writeFiles_eq_ok_iff : (writeFiles files store path0 path1).run s = (.ok (), s') ↔
    ∃ s0, (files.write path0 store.bank0.toList).run s = (.ok (), s0) ∧
      (files.write path1 store.bank1.toList).run s0 = (.ok (), s') := by
  refine run_write_eq_ok_iff.trans (exists_congr fun s0 => and_congr_right fun _ => ?_)
  refine run_write_eq_ok_iff.trans ⟨?_, fun h => ⟨s', h, rfl⟩⟩
  rintro ⟨_, h, ⟨⟩⟩
  exact h

theorem readFiles_of_read (h0 : (files.read path0).run s = (.ok bytes0, s))
    (h1 : (files.read path1).run s = (.ok bytes1, s)) :
    (readFiles files path0 path1).run s = (ofBanks bytes0 bytes1, s) :=
  (run_bind h0).trans (run_bind h1)

theorem readFiles_of_writeFiles (hfiles : files.Lawful apart) (hapart : apart path0 path1)
    (h : (writeFiles files store path0 path1).run s = (.ok (), s')) :
    (readFiles files path0 path1).run s' = (.ok store, s') := by
  obtain ⟨s0, h0, h1⟩ := writeFiles_eq_ok_iff.mp h
  have hread0 := hfiles.read_of_apart hapart h1 (hfiles.read_of_write h0)
  have hread1 := hfiles.read_of_write h1
  rw [readFiles_of_read (Prod.ext hread0 (hfiles.keeps path0 s')) (Prod.ext hread1 (hfiles.keeps path1 s')),
    ofBanks_eq_ok_iff.mpr ⟨rfl, rfl⟩]

end

/-! ## Everything together -/

/-- Two byte strings are a store exactly if both have the right length, and the first that has not is named. The
words of the store are all there and give back the bytes, so the store. A change counts until the next one at
the same address. Files that were written with the store are read as the store. -/
theorem image_lossless (bytes0 bytes1 : List UInt8) :
    ((∃ store, ofBanks bytes0 bytes1 = .ok store) ↔
      bytes0.length = storeSize ∧ bytes1.length = storeSize) ∧
    (∀ e, ofBanks bytes0 bytes1 = .error e ↔
      bytes0.length ≠ storeSize ∧ .bankSize 0 bytes0.length = e ∨
      bytes0.length = storeSize ∧ bytes1.length ≠ storeSize ∧ .bankSize 1 bytes1.length = e) ∧
    ∀ store, ofBanks bytes0 bytes1 = .ok store →
      (store.decode = .ok store.words ∧ store.words.length = storeSize ∧
        (store.words.map Word.toBanks).map Prod.fst = bytes0 ∧
        (store.words.map Word.toBanks).map Prod.snd = bytes1 ∧
        ∀ other : Store, other.decode = store.decode → other = store) ∧
      (∀ (before after : List (Address × UInt8 × UInt8)) (a : Address) (byte0 byte1 : UInt8),
        (∀ change ∈ after, change.1 ≠ a) →
        (store.edit (before ++ (a, byte0, byte1) :: after)).decodeAt a = .ok (.ofBanks byte0 byte1)) ∧
      (∀ (changes : List (Address × UInt8 × UInt8)) (a : Address), (∀ change ∈ changes, change.1 ≠ a) →
        (store.edit changes).decodeAt a = store.decodeAt a) ∧
      ∀ (σ : Type) (files : FileSystem (StateM σ)) (apart : String → String → Prop), files.Lawful apart →
        ∀ (path0 path1 : String) (s s' : σ), apart path0 path1 →
        ((writeFiles files store path0 path1).run s = (.ok (), s') ↔
          ∃ s0, (files.write path0 bytes0).run s = (.ok (), s0) ∧
            (files.write path1 bytes1).run s0 = (.ok (), s')) ∧
        ((writeFiles files store path0 path1).run s = (.ok (), s') →
          (readFiles files path0 path1).run s' = (.ok store, s')) := by
  refine ⟨exists_ofBanks_iff, fun e => ofBanks_eq_error_iff, fun store h => ?_⟩
  obtain ⟨rfl, rfl⟩ := ofBanks_eq_ok_iff.mp h
  refine ⟨⟨store.decode_eq, store.length_words, store.map_fst_toBanks_words, store.map_snd_toBanks_words,
    fun other hother => ?_⟩, fun before after a byte0 byte1 hafter => ?_, fun changes a hchanges => ?_,
    fun σ files apart hfiles path0 path1 s s' hapart =>
      ⟨writeFiles_eq_ok_iff, readFiles_of_writeFiles hfiles hapart⟩⟩
  · rw [decode_eq, decode_eq] at hother
    exact words_inj (Except.ok.inj hother)
  · rw [decodeAt_eq, word_edit hafter]
  · rw [decodeAt_eq, decodeAt_eq, word_edit_of_forall_ne hchanges]

/-- A store that holds every address itself: a word of it changed twice, and its files in a directory with
nothing in it. -/
theorem image_lossless_addresses :
    let store : Store :=
      { bank0 := .ofFn fun a => UInt8.ofNat a.val, bank1 := .ofFn fun a => UInt8.ofNat (a.val / 256) }
    let first : Address := ⟨4, by decide⟩
    let second : Address := ⟨259, by decide⟩
    store.word second = .ofBanks 3 1 ∧
    (store.edit [(second, 7, 0), (second, 0x34, 0x12), (first, 0, 0)]).decodeAt second =
      .ok (.ofBanks 0x34 0x12) ∧
    ∃ dir : Directory,
      (writeFiles FileSystem.ofDirectory store "0" "1").run {} = (.ok (), dir) ∧
      (readFiles FileSystem.ofDirectory "0" "1").run dir = (.ok store, dir) := by
  intro store first second
  let bytes0 := store.bank0.toList
  let bytes1 := store.bank1.toList
  have happart : Path.ofText "0" ≠ Path.ofText "1" := by
    rw [show Path.ofText "0" = ["0"] by cbv, show Path.ofText "1" = ["1"] by cbv]
    decide
  have hwrite0 (bytes : List UInt8) : Directory.write {} "0" bytes = .ok ⟨[(["0"], bytes)]⟩ := by
    cbv
  have hwrite1 (bytes bytes' : List UInt8) :
      Directory.write ⟨[(["0"], bytes)]⟩ "1" bytes' = .ok ⟨[(["1"], bytes'), (["0"], bytes)]⟩ := by
    cbv
  obtain ⟨-, -, hstore⟩ := image_lossless bytes0 bytes1
  obtain ⟨-, hlast, -, hfiles⟩ := hstore store (ofBanks_eq_ok_iff.mpr ⟨rfl, rfl⟩)
  obtain ⟨hwrites, hreads⟩ := hfiles Directory FileSystem.ofDirectory _ FileSystem.ofDirectory_lawful "0" "1"
    {} ⟨[(["1"], bytes1), (["0"], bytes0)]⟩ happart
  have hwritten := hwrites.mpr ⟨⟨[(["0"], bytes0)]⟩,
    FileSystem.write_ofDirectory_eq_ok_iff.mpr (hwrite0 bytes0),
    FileSystem.write_ofDirectory_eq_ok_iff.mpr (hwrite1 bytes0 bytes1)⟩
  refine ⟨?_, ?_, _, hwritten, hreads hwritten⟩
  · simp [word, store, second]
  · exact hlast [(second, 7, 0)] [(first, 0, 0)] second 0x34 0x12
      (List.forall_mem_singleton.mpr (by decide))

end Store

end Microcomputer.Control
