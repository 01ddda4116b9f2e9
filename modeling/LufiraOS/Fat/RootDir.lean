import LufiraOS.Fat.Core
import Mathlib.Data.List.TakeWhile

/-!
# New entries in the root

`find_free_dir_entry` takes the first slot that is free, be it the end of the directory or a
deleted entry, and both `fat_create_file` and `fat_mkdir` then end the directory behind
it.  Behind a deleted entry that hides whatever was there.
-/

namespace Fat

open List

variable {es : List DirEntry} {new : DirEntry} {root : List (List DirEntry)}

/-- The entries of one array that a search can return. -/
def live (es : List DirEntry) : List DirEntry :=
  (es.takeWhile fun e => e.first ≠ 0x00).filter DirEntry.isShown

/-- The entries of the root that a search can return, in its order. -/
def shown (root : List (List DirEntry)) : List DirEntry := root.flatMap live

/-- The entry has this name. -/
def named (name : UInt8 × List UInt8) (e : DirEntry) : Bool := e.name = name

theorem live_cons (e : DirEntry) (es : List DirEntry) : live (e :: es) =
      if e.first = 0x00 then [] else if e.isShown then e :: live es else live es := by
  unfold live
  by_cases h : e.first = 0x00
  · simp [h]
  · by_cases hs : e.isShown <;> simp [h, hs]

theorem scan_eq (name : UInt8 × List UInt8) (es : List DirEntry) :
    scan name es = (live es).find? (named name) := by
  induction es with
  | nil => rfl
  | cons e es ih =>
    rw [scan, live_cons]
    split
    · rfl
    · by_cases hs : e.isShown <;> by_cases hn : e.name = name <;> simp [hs, hn, ih, named]

/-- **A search returns the first entry shown** that has the name. -/
theorem findEntryInDir_eq (root : List (List DirEntry)) (name : UInt8 × List UInt8) :
    findEntryInDir root name = (shown root).find? (named name) := by
  induction root with
  | nil => rfl
  | cons es rest ih =>
    rw [findEntryInDir, findSome?_cons, shown, flatMap_cons, find?_append, ← scan_eq]
    cases scan name es with
    | some e => rfl
    | none => exact ih

/-! ## What a new entry hides -/

theorem live_endMark (es : List DirEntry) : live (endMark es) = [] := by
  cases es with
  | nil => rfl
  | cons e es => rw [endMark, live_cons, if_pos rfl]

theorem live_append {pre : List DirEntry} (h : ∀ e ∈ pre, e.first ≠ 0x00) (es : List DirEntry) :
    live (pre ++ es) = live pre ++ live es := by
  unfold live
  have hpre : ∀ e ∈ pre, decide (e.first ≠ 0x00) = true := fun e he => decide_eq_true (h e he)
  rw [takeWhile_append_of_pos hpre, filter_append, takeWhile_eq_self_iff.2 hpre]

theorem first_ne_of_mem_beforeSlot {e : DirEntry} (h : e ∈ beforeSlot es) : e.first ≠ 0x00 := by
  have hfree := mem_takeWhile_imp h
  simp only [DirEntry.isFree, Bool.not_eq_eq_eq_not, Bool.not_true, Bool.or_eq_false_iff,
    decide_eq_false_iff_not] at hfree
  exact hfree.1

theorem live_eq (es : List DirEntry) : live es = live (beforeSlot es) ++ live (fromSlot es) := by
  rw [← live_append fun e => first_ne_of_mem_beforeSlot, beforeSlot, fromSlot,
    takeWhile_append_dropWhile]

/-- The new entry as far as a search can return it. -/
def shownNew (new : DirEntry) : List DirEntry := if new.isShown then [new] else []

theorem live_fill (hnew : new.first ≠ 0x00) (es : List DirEntry) :
    live (fill new es) = live (beforeSlot es) ++ shownNew new := by
  rw [fill, live_append fun e => first_ne_of_mem_beforeSlot, live_cons, if_neg hnew, live_endMark]
  rfl

/-- The entries that a new entry in the root of FAT32 hides. -/
def behindChain (more : Bool) : List (List DirEntry) → List DirEntry
  | [] => []
  | es :: rest =>
    match clusterSlot (!rest.isEmpty || more) es with
    | none => behindChain more rest
    | some true => live (rest.headD [])
    | some false => live (fromSlot es)

/-- The entries that stay. -/
def keptChain (more : Bool) : List (List DirEntry) → List DirEntry
  | [] => []
  | es :: rest =>
    match clusterSlot (!rest.isEmpty || more) es with
    | none => live es ++ keptChain more rest
    | some true => live (beforeSlot es) ++ shown rest.tail
    | some false => live (beforeSlot es) ++ shown rest

namespace Fs

/-- The entries shown between the slot for a new entry and the next end: in the fixed root all
behind the slot, in FAT32 those in the cluster of the entry behind the slot. -/
def behind (fs : Fs) : List DirEntry :=
  match fs.width with
  | .fat32 => behindChain fs.chainGoesOn fs.root
  | _ => live (fromSlot (fs.root.headD []))

/-- The other entries shown. -/
def kept (fs : Fs) : List DirEntry :=
  match fs.width with
  | .fat32 => keptChain fs.chainGoesOn fs.root
  | _ => live (beforeSlot (fs.root.headD [])) ++ shown fs.root.tail

end Fs

/-- How the entries shown change. -/
def Replaces (old new hidden stay added : List DirEntry) : Prop :=
  ∃ p r, old = p ++ hidden ++ r ∧ stay = p ++ r ∧ new = p ++ added ++ r

theorem replaces_fill (hnew : new.first ≠ 0x00) (rest : List (List DirEntry)) :
    Replaces (shown (es :: rest)) (shown (fill new es :: rest)) (live (fromSlot es))
      (live (beforeSlot es) ++ shown rest) (shownNew new) := by
  refine ⟨live (beforeSlot es), shown rest, ?_, rfl, ?_⟩
  · rw [shown, flatMap_cons, live_eq]
    rfl
  · rw [shown, flatMap_cons, live_fill hnew]
    rfl

theorem live_fromSlot_of_mark {next : Bool}
    (h : clusterSlot next es = some true) : live (fromSlot es) = [] := by
  have hfree : ∀ e ∈ (fromSlot es).head?, e.isFree = true := by
    intro e he
    have hdrop := head?_dropWhile_not (fun e : DirEntry => !e.isFree) es
    rw [fromSlot] at he
    rw [Option.mem_def.1 he] at hdrop
    simpa using hdrop
  unfold clusterSlot at h
  cases hs : fromSlot es with
  | nil => rfl
  | cons e tail =>
    rw [hs] at h hfree
    have he := hfree e rfl
    cases tail with
    | cons _ _ => simp at h
    | nil =>
      rw [live_cons]
      simp only [DirEntry.isFree, Bool.or_eq_true, decide_eq_true_eq] at he
      rcases he with he | he
      · rw [if_pos he]
      · simp [DirEntry.isShown, he, live]

theorem replaces_chain (hnew : new.first ≠ 0x00) {more : Bool}
    {root' : List (List DirEntry)} (h : chainInsert new more root = some root') :
    Replaces (shown root) (shown root') (behindChain more root) (keptChain more root)
      (shownNew new) := by
  induction root generalizing root' with
  | nil => cases h
  | cons es rest ih =>
    unfold chainInsert at h
    unfold behindChain keptChain
    cases hslot : clusterSlot (!rest.isEmpty || more) es with
    | none =>
      simp only [hslot, Option.map_eq_some_iff] at h ⊢
      obtain ⟨rest', hrest, rfl⟩ := h
      obtain ⟨p, r, hold, hstay, hnew'⟩ := ih hrest
      refine ⟨live es ++ p, r, ?_, ?_, ?_⟩
      · simp only [shown, flatMap_cons] at hold ⊢
        rw [hold, append_assoc, append_assoc, append_assoc]
      · rw [hstay, append_assoc]
      · simp only [shown, flatMap_cons] at hnew' ⊢
        rw [hnew', append_assoc, append_assoc, append_assoc]
    | some mark =>
      rw [hslot] at h
      cases h
      cases mark with
      | false => exact replaces_fill hnew rest
      | true =>
        have hhead : shown rest = live (rest.headD []) ++ shown rest.tail := by
          cases rest <;> rfl
        refine ⟨live (beforeSlot es), shown rest.tail, ?_, rfl, ?_⟩
        · rw [shown, flatMap_cons, live_eq, live_fromSlot_of_mark hslot, append_nil, append_assoc]
          exact congrArg _ hhead
        rw [shown, flatMap_cons, live_fill hnew]
        cases rest with
        | nil => rfl
        | cons c cs =>
          show _ ++ List.flatMap live (endMark c :: cs) = _
          rw [flatMap_cons, live_endMark]
          rfl

/-- The entries shown after a slot was taken. -/
theorem Fs.replaces_insertRoot {fs : Fs} (hnew : new.first ≠ 0x00)
    (h : fs.insertRoot new = some root) :
    Replaces (shown fs.root) (shown root) fs.behind fs.kept (shownNew new) := by
  unfold Fs.insertRoot at h
  unfold Fs.behind Fs.kept
  cases hw : fs.width with
  | fat12 | fat16 =>
    rw [hw] at h
    cases hroot : fs.root with
    | nil =>
      rw [hroot] at h
      cases h
    | cons es rest =>
      simp only [hroot, Option.map_eq_some_iff] at h
      obtain ⟨es', hes, rfl⟩ := h
      unfold fixedInsert at hes
      split at hes
      · cases hes
      cases hes
      exact replaces_fill hnew rest
  | fat32 =>
    rw [hw] at h
    exact replaces_chain hnew h

/-! ## The frame of a new entry -/

/-- Every name found before is found with the same entry, the new name is found, and no
other name is. -/
def Framed (root root' : List (List DirEntry)) (sname : UInt8 × List UInt8) : Prop :=
  (∀ name e, findEntryInDir root name = some e → findEntryInDir root' name = some e) ∧
    (findEntryInDir root' sname).isSome = true ∧
    ∀ name, name ≠ sname → findEntryInDir root name = none → findEntryInDir root' name = none

/-- Each name behind the slot is found with the same entry when the entries behind the slot
are left out. -/
def Fs.Spared (fs : Fs) : Prop :=
  ∀ e ∈ fs.behind, fs.kept.find? (named e.name) = (shown fs.root).find? (named e.name)

instance (fs : Fs) : Decidable fs.Spared :=
  inferInstanceAs (Decidable (∀ e ∈ fs.behind, fs.kept.find? (named e.name) =
    (shown fs.root).find? (named e.name)))

theorem find?_named_eq_none {l : List DirEntry} {name : UInt8 × List UInt8} :
    l.find? (named name) = none ↔ ∀ e ∈ l, e.name ≠ name := by
  simp [find?_eq_none, named]

/-- What `Replaces` does to a search for a name that is not the added one's. -/
theorem find?_replaced {p r added : List DirEntry} {name : UInt8 × List UInt8}
    (h : ∀ e ∈ added, e.name ≠ name) :
    (p ++ added ++ r).find? (named name) = (p ++ r).find? (named name) := by
  rw [find?_append, find?_append, find?_named_eq_none.2 h, Option.or_none, find?_append]

/-- **The frame holds exactly when** the new entry is shown and no name is lost behind it. -/
theorem framed_iff {fs : Fs} (new : DirEntry) (hfresh : findEntryInDir fs.root new.name = none)
    (h : Replaces (shown fs.root) (shown root) fs.behind fs.kept (shownNew new)) :
    Framed fs.root root new.name ↔ new.isShown = true ∧ fs.Spared := by
  obtain ⟨p, r, hold, hstay, hnew⟩ := h
  have hadded : ∀ e ∈ shownNew new, e.name = new.name := by
    unfold shownNew
    split <;> simp
  simp only [Framed, findEntryInDir_eq, Fs.Spared] at hfresh ⊢
  rw [hnew, hstay]
  have hother : ∀ {name}, name ≠ new.name →
      (p ++ shownNew new ++ r).find? (named name) = (p ++ r).find? (named name) :=
    fun hne => find?_replaced fun e he heq => hne (heq ▸ hadded e he)
  have hlost := find?_named_eq_none.1 hfresh
  rw [hold] at hlost ⊢
  constructor
  · rintro ⟨hframe, hfound, -⟩
    refine ⟨?_, fun e he => ?_⟩
    · by_contra hshown
      have hnone : (p ++ shownNew new ++ r).find? (named new.name) = none := by
        refine find?_named_eq_none.2 fun e he => hlost e ?_
        rw [shownNew, if_neg hshown, append_nil] at he
        rcases mem_append.1 he with he | he <;> simp [he]
      rw [hnone] at hfound
      cases hfound
    have hne : e.name ≠ new.name := hlost e (by simp [he])
    cases hfind : (p ++ fs.behind ++ r).find? (named e.name) with
    | none => exact absurd rfl (find?_named_eq_none.1 hfind e (by simp [he]))
    | some x => rw [← hother hne, hframe _ _ hfind]
  rintro ⟨hshown, hspared⟩
  refine ⟨fun name e hfind => ?_, ?_, fun name hne hnone => ?_⟩
  · have hne : name ≠ new.name := by
      rintro rfl
      rw [hold] at hfresh
      rw [hfresh] at hfind
      cases hfind
    rw [hother hne, ← hfind]
    -- the name is found behind the slot first, or leaving the entries out changes nothing
    by_cases hbehind : ∃ x ∈ fs.behind, x.name = name
    · obtain ⟨x, hx, rfl⟩ := hbehind
      exact hspared x hx
    · exact (find?_replaced fun x hx heq => hbehind ⟨x, hx, heq⟩).symm
  · rw [find?_append, find?_append, shownNew, if_pos hshown]
    simp [named]
  · rw [hother hne]
    refine find?_named_eq_none.2 fun e he => find?_named_eq_none.1 hnone e ?_
    rcases mem_append.1 he with he | he <;> simp [he]

theorem toShortName_fst {name : List UInt8} (hname : name ≠ []) (hzero : ∀ c ∈ name, c ≠ 0) :
    (toShortName name).1 ≠ 0x00 := by
  obtain ⟨c, rest, rfl⟩ := exists_cons_of_ne_nil hname
  have hc := hzero c (by simp)
  by_cases hdot : c = 46
  · simp [toShortName, padded, hdot]
  have hup : upper c ≠ 0 := by
    unfold upper
    split
    · next h =>
      intro heq
      have hle := h.1
      have : c = 32 := by
        have := congrArg (· + 32) heq
        simpa using this
      rw [this] at hle
      exact absurd hle (by decide)
    · exact hc
  simpa [toShortName, padded, hdot] using hup

namespace Fs

/-- The new name does not look deleted. -/
theorem isShown_newEntry (sname : UInt8 × List UInt8) {attr : UInt8} (c : Nat) (w : Width)
    (hattr : attr ≠ 0x0F) : (newEntry sname attr c w).isShown = true ↔ sname.1 ≠ 0xE5 := by
  by_cases h : sname.1 = 0xE5 <;> simp [DirEntry.isShown, newEntry, hattr, h]

/-- The two operations that make an entry in the root. -/
inductive Maker where
  | file
  | dir (ok : Bool)

/-- `fat_create_file` or `fat_mkdir`. -/
def make (fs : Fs) (name : List UInt8) : Maker → Int × Fs
  | .file => fs.fatCreateFile name
  | .dir ok => fs.fatMkdir name ok

/-- What an operation that returns 0 did to the root. -/
theorem insertRoot_of_make {fs fs' : Fs} {name : List UInt8} {m : Maker}
    (h : fs.make name m = (0, fs')) :
    name ≠ [] ∧ findEntryInDir fs.root (toShortName name) = none ∧ ∃ attr c, attr ≠ 0x0F ∧
        fs.insertRoot (newEntry (toShortName name) attr c fs.width) = some fs'.root := by
  cases m with
  | file =>
    change fs.fatCreateFile name = (0, fs') at h
    unfold fatCreateFile at h
    split at h
    · cases h
    · next hname =>
      split at h
      · cases h
      · next hfind =>
        rw [Option.not_isSome_iff_eq_none] at hfind
        dsimp only at h
        split at h
        · cases h
        · next root hroot =>
          obtain ⟨-, rfl⟩ := Prod.mk.inj h
          exact ⟨hname, hfind, 0x20, 0, by decide, hroot⟩
  | dir ok =>
    change fs.fatMkdir name ok = (0, fs') at h
    unfold fatMkdir at h
    split at h
    · cases h
    · next hname =>
      simp only [Bool.or_eq_true, decide_eq_true_eq, not_or] at hname
      split at h
      · cases h
      · next hfind =>
        rw [Option.not_isSome_iff_eq_none] at hfind
        dsimp only at h
        split at h
        · cases h
        · cases h
        · next root c hroot hfree =>
          split at h
          · obtain ⟨-, rfl⟩ := Prod.mk.inj h
            exact ⟨hname.1, hfind, 0x10, _, by decide, hroot⟩
          · cases h

/-- **A new file or directory leaves the other names of the root alone exactly when** its short
name does not start with 0xE5 and no name of the root is lost behind the slot it takes. -/
theorem framed_iff_spared {fs fs' : Fs} {name : List UInt8} {m : Maker}
    (hname : ∀ c ∈ name, c ≠ 0) (hmake : fs.make name m = (0, fs')) :
    Framed fs.root fs'.root (toShortName name) ↔ (toShortName name).1 ≠ 0xE5 ∧ fs.Spared := by
  obtain ⟨hne, hfind, attr, c, hattr, hroot⟩ := insertRoot_of_make hmake
  have hreplaces := replaces_insertRoot (toShortName_fst hne hname) hroot
  rw [← isShown_newEntry (toShortName name) c fs.width hattr]
  exact framed_iff (newEntry (toShortName name) attr c fs.width) hfind hreplaces

/-- All entries behind the first 0x00 are 0x00. -/
def WellFormed (root : List (List DirEntry)) : Prop :=
  ∀ e ∈ root.flatten.dropWhile (fun e => e.first ≠ 0x00), e.first = 0x00

/-- An entry with a name of one letter. -/
def entryOf (first : UInt8) : DirEntry := ⟨first, List.replicate 10 32, 0x20, [], 0, 0, 0⟩

/-- A FAT12 volume whose root holds these entries and an end. -/
def volume (first : List UInt8) : Fs :=
  ⟨.fat12, 12, 1, fun _ => 0, [first.map entryOf ++ [entryOf 0, entryOf 0]], [], []⟩

end Fs

end Fat
