import LufiraOS.Fat.Boot
import LufiraOS.Fat.Codec

/-!
# The volume and its image

The table and the fixed root of `Fs` are parts of one image.  `fat_init` also mounts volumes on
which they overlap, and there a store into the table changes entries of the root.  On a volume on
which the parts lie one behind the other, every call keeps what the image shows in step with the
table and the root, so what is proved about these holds for the bytes.
-/

namespace Fat

open ByteStore

variable {l : Layout} {m : Bytes} {fs fs' : Fs} {es : List DirEntry}

/-- **The parts of the image are apart**: each table has an entry for every cluster, the tables end
where the root begins, and the root ends before the data. -/
structure Placed (l : Layout) (fs : Fs) : Prop where
  entries : ∀ c, fs.InRange c → fatOffset fs.width c + fatSpan fs.width ≤ l.sectorsPerFat * 512
  some : 0 < l.numFats
  fats : l.fatStart + l.numFats * l.sectorsPerFat = l.rootDirStart
  inside : l.rootDirStart ≤ l.dataStart
  root : fs.width ≠ .fat32 →
    l.rootDirStart * 512 + 32 * (fs.root.headD []).length ≤ l.dataStart * 512

/-- The bytes at `a` are those of the entries. -/
def ArrayAt (m : Bytes) (a : Nat) (es : List DirEntry) : Prop :=
  ∀ i e, es[i]? = some e → e.Fits ∧ ∀ k < 32, m (a + 32 * i + k) = e.encode k

/-- **The image shows the volume**: the first table holds the entries of all clusters, and the
fixed root is where the boot sector says.  The root of FAT32 is not in the image. -/
structure Shows (l : Layout) (m : Bytes) (fs : Fs) : Prop where
  table : ∀ c, fs.InRange c → rawFat fs.width m (l.fatStart * 512) c = fs.fat c
  root : fs.width ≠ .fat32 → ∃ es, fs.root = [es] ∧ ArrayAt m (l.rootDirStart * 512) es

/-! ## One store -/

/-- The image after a store. -/
def storeInto (w : Width) (l : Layout) (m : Bytes) : Store → Bytes
  | .fat cluster value => putFats w l.sectorsPerFat cluster value l.numFats l.fatStart m
  | .entry index e => copyIn m (l.rootDirStart * 512 + 32 * index) 32 e.encode
  | .endMark index => putByte m (l.rootDirStart * 512 + 32 * index) 0

/-- Bytes that agree behind the tables show the same root. -/
theorem ArrayAt.congr {m' : Bytes} {a : Nat} (h : ArrayAt m a es)
    (hsame : ∀ x, a ≤ x → m' x = m x) :
    ArrayAt m' a es := by
  intro i e he
  obtain ⟨hfits, hbytes⟩ := h i e he
  exact ⟨hfits, fun k hk => (hsame _ (by omega)).trans (hbytes k hk)⟩

/-- A store into the root does not touch the first table. -/
theorem rawFat_behind {m' : Bytes} (hplaced : Placed l fs) {c : Nat} (hc : fs.InRange c)
    (hsame : ∀ x < l.rootDirStart * 512, m' x = m x) :
    rawFat fs.width m' (l.fatStart * 512) c = rawFat fs.width m (l.fatStart * 512) c := by
  refine rawFat_congr fun k hk => hsame _ ?_
  have hentry := hplaced.entries c hc
  have hlt := Vol.table_lt hplaced.fats (j := 0) hplaced.some (k := fatOffset fs.width c + k)
      (by omega)
  rwa [Nat.zero_mul, Nat.add_zero, ← Nat.add_assoc] at hlt

/-- **A store into the table** is seen as one, and leaves the root alone. -/
theorem Shows.setFatEntry (hplaced : Placed l fs) (h : Shows l m fs) {c : Nat} (hc : fs.InRange c)
    (value : Nat) :
    Shows l (storeInto fs.width l m (.fat c value)) (fs.setFatEntry c value) := by
  rw [Fs.setFatEntry, if_pos hc]
  refine ⟨fun x hx => ?_, fun hw => ?_⟩
  · have hraw : rawFat fs.width (storeInto fs.width l m (.fat c value))
        ((l.fatStart + 0 * l.sectorsPerFat) * 512) x =
        if x = c then Fs.stored fs.width value
        else rawFat fs.width m ((l.fatStart + 0 * l.sectorsPerFat) * 512) x :=
      rawFat_putFats (hplaced.entries c hc) (hplaced.entries x hx) hplaced.some
    rw [Nat.zero_mul, Nat.add_zero] at hraw
    refine hraw.trans ?_
    rw [h.table x hx]
    exact (Function.update_apply ..).symm
  · obtain ⟨es, hes, harray⟩ := h.root hw
    refine ⟨es, hes, harray.congr fun a ha => putFats_behind (hplaced.entries c hc) ?_⟩
    rw [hplaced.fats]
    exact ha

/-- An entry of the array is stored. -/
theorem ArrayAt.set {a i : Nat} {e : DirEntry} (h : ArrayAt m a es) (he : e.Fits) :
    ArrayAt (copyIn m (a + 32 * i) 32 e.encode) a (es.set i e) := by
  intro j x hx
  rw [List.getElem?_set] at hx
  split_ifs at hx with hij hlt
  · cases hx
    subst hij
    refine ⟨he, fun k hk => ?_⟩
    rw [copyIn_inside (Nat.le_add_right ..) (Nat.add_lt_add_left hk _), Nat.add_sub_cancel_left]
  · obtain ⟨hfits, hbytes⟩ := h j x hx
    exact ⟨hfits, fun k hk => (copyIn_outside (by omega)).trans (hbytes k hk)⟩

/-- An entry of the array becomes the end of the directory. -/
theorem ArrayAt.end {a i : Nat} {e : DirEntry} (h : ArrayAt m a es) (he : es[i]? = some e) :
    ArrayAt (putByte m (a + 32 * i) 0) a (es.set i { e with first := 0x00 }) := by
  intro j x hx
  rw [List.getElem?_set] at hx
  split_ifs at hx with hij hlt
  · cases hx
    subst hij
    obtain ⟨hfits, hbytes⟩ := h i e he
    refine ⟨⟨hfits.1, hfits.2, hfits.3, hfits.4⟩, fun k hk => ?_⟩
    cases k with
    | zero => exact Function.update_self ..
    | succ k => exact (putByte_of_ne (by omega)).trans (hbytes (k + 1) hk)
  · obtain ⟨hfits, hbytes⟩ := h j x hx
    exact ⟨hfits, fun k hk => (putByte_of_ne (by omega)).trans (hbytes k hk)⟩

/-- A store that changes the root shows the new root. -/
theorem Shows.withRoot {m' : Bytes} (hplaced : Placed l fs) (h : Shows l m fs)
    {root : List (List DirEntry)}
    (log : List Store) (hsame : ∀ x < l.rootDirStart * 512, m' x = m x)
    (hroot : fs.width ≠ .fat32 → ∃ es, root = [es] ∧ ArrayAt m' (l.rootDirStart * 512) es) :
    Shows l m' { fs with root := root, log := log } :=
  ⟨fun c hc => (rawFat_behind hplaced hc hsame).trans (h.table c hc), hroot⟩

/-! ## What a call stores -/

/-- The search and the change of an entry find the same place. -/
theorem modifyScan_eq (sname : UInt8 × List UInt8) (f : DirEntry → DirEntry) (es : List DirEntry) :
    modifyScan sname f es = (scan sname es).map fun e =>
      es.set (es.findIdx fun x => x.isShown && x.name = sname) (f e) := by
  induction es with
  | nil => rfl
  | cons e es ih =>
    rw [modifyScan, scan]
    split
    · rfl
    split
    · next hfound => simp [List.findIdx_cons, hfound]
    · next hfound =>
      rw [ih, Option.map_map]
      congr 1
      funext x
      simp [List.findIdx_cons, hfound]

/-- What a search returns is one of the entries. -/
theorem mem_of_scan {sname : UInt8 × List UInt8} {e : DirEntry} (h : scan sname es = some e) :
    e ∈ es := by
  induction es with
  | nil => cases h
  | cons x es ih =>
    rw [scan] at h
    split_ifs at h
    · cases h
      exact List.mem_cons_self
    · exact List.mem_cons_of_mem _ (ih h)

/-- The image before the stores of the log shows the volume after them. -/
def Follows (l : Layout) (m : Bytes) (fs : Fs) : Prop :=
  Placed l fs ∧ Shows l (fs.log.foldl (storeInto fs.width l) m) fs

theorem Placed.congr (h : Placed l fs) (hshape : Fs.SameShape fs fs')
    (hlength : fs.width ≠ .fat32 → (fs'.root.headD []).length = (fs.root.headD []).length) :
    Placed l fs' where
  entries c hc := by
    rw [hshape.width]
    exact h.entries c (hshape.inRange.1 hc)
  some := h.some
  fats := h.fats
  inside := h.inside
  root hw := by
    rw [hshape.width] at hw
    rw [hlength hw]
    exact h.root hw

/-- The stores are into the root. -/
def Rooted (stores : List Store) : Prop := ∀ s ∈ stores, ∀ c value, s ≠ .fat c value

/-- Stores into the root leave the bytes before it alone. -/
theorem Rooted.before {stores : List Store} (h : Rooted stores) (w : Width) {x : Nat}
    (hx : x < l.rootDirStart * 512) : stores.foldl (storeInto w l) m x = m x := by
  induction stores generalizing m with
  | nil => rfl
  | cons s stores ih =>
    rw [List.foldl_cons, ih fun s hs => h s (List.mem_cons_of_mem _ hs)]
    cases s with
    | fat c value => exact absurd rfl (h _ List.mem_cons_self c value)
    | entry i e => exact copyIn_outside (.inl (Nat.lt_of_lt_of_le hx (Nat.le_add_right ..)))
    | endMark i => exact putByte_of_ne (Nat.ne_of_lt (Nat.lt_of_lt_of_le hx (Nat.le_add_right ..)))

/-- **A change of the root** with its stores. -/
theorem Follows.withRoot (h : Follows l m fs) {root : List (List DirEntry)} {stores : List Store}
    (hstores : Rooted stores)
    (hroot : fs.width ≠ .fat32 → ∀ es M, fs.root = [es] → ArrayAt M (l.rootDirStart * 512) es →
      ∃ es', root = [es'] ∧ es'.length = es.length ∧
        ArrayAt (stores.foldl (storeInto fs.width l) M) (l.rootDirStart * 512) es') :
    Follows l m { fs with root := root, log := fs.log ++ stores } := by
  refine ⟨h.1.congr ⟨rfl, rfl, rfl, rfl⟩ fun hw => ?_, ?_⟩
  · obtain ⟨es, hes, harray⟩ := h.2.root hw
    obtain ⟨es', rfl, hlength, -⟩ := hroot hw es _ hes harray
    rw [hes]
    exact hlength
  rw [List.foldl_append]
  refine h.2.withRoot h.1 _ (fun x hx => hstores.before _ hx) fun hw => ?_
  obtain ⟨es, hes, harray⟩ := h.2.root hw
  obtain ⟨es', hes', -, harray'⟩ := hroot hw es _ hes harray
  exact ⟨es', hes', harray'⟩

theorem Follows.setFatEntry (h : Follows l m fs) (c value : Nat) :
    Follows l m (fs.setFatEntry c value) := by
  by_cases hc : fs.InRange c
  · have hlog : (fs.setFatEntry c value).log = fs.log ++ [.fat c value] := by
      rw [Fs.setFatEntry, if_pos hc]
    have hroot : (fs.setFatEntry c value).root = fs.root := by
      rw [Fs.setFatEntry, if_pos hc]
    refine ⟨h.1.congr (Fs.sameShape_set ..) fun _ => by rw [hroot], ?_⟩
    rw [hlog, (Fs.sameShape_set fs c value).width, List.foldl_append]
    exact h.2.setFatEntry h.1 hc value
  · rw [Fs.setFatEntry, if_neg hc]
    exact h

theorem rooted_modifyStores (fs : Fs) (sname : UInt8 × List UInt8) (f : DirEntry → DirEntry) :
    Rooted (fs.modifyStores sname f) := by
  unfold Fs.modifyStores
  split <;> simp [Rooted]

theorem Follows.modifyEntry (h : Follows l m fs) (sname : UInt8 × List UInt8)
    {f : DirEntry → DirEntry}
    (hf : Fs.KeepsFits f) : Follows l m (fs.modifyEntry sname f) := by
  refine h.withRoot (rooted_modifyStores _ _ _) fun hw es M hes harray => ?_
  have hfind : findEntryInDir fs.root sname = scan sname es := by
    rw [hes, findEntryInDir, List.findSome?_cons]
    cases scan sname es <;> rfl
  rw [hes, modifyFound, modifyScan_eq, Fs.modifyStores, hfind, hes]
  cases hscan : scan sname es with
  | none => exact ⟨es, rfl, rfl, by cases hwidth : fs.width <;> exact harray⟩
  | some e =>
    refine ⟨_, rfl, List.length_set, ?_⟩
    obtain ⟨i, hi⟩ := List.mem_iff_getElem?.1 (mem_of_scan hscan)
    cases hwidth : fs.width with
    | fat32 => exact absurd hwidth hw
    | fat12 | fat16 => exact harray.set (hf e (harray i e hi).1)

/-! ### A new entry -/

theorem rooted_insertStores (fs : Fs) (new : DirEntry) : Rooted (fs.insertStores new) := by
  unfold Fs.insertStores
  dsimp only
  split
  · simp [Rooted]
  split
  · simp [Rooted]
  split <;> simp [Rooted]

/-- **The stores of a new entry** leave the bytes of the root with the slot taken. -/
theorem ArrayAt.fill {new : DirEntry} {w : Width} (h : ArrayAt m (l.rootDirStart * 512) es)
    (hnew : new.Fits)
    (hslot : fromSlot es ≠ []) :
    (fill new es).length = es.length ∧ ArrayAt (List.foldl (storeInto w l) m
      (match (fromSlot es).tail with
        | [] => [.entry (beforeSlot es).length new]
        | next :: _ => if next.first ≠ 0x00 then
            [.entry (beforeSlot es).length new, .endMark ((beforeSlot es).length + 1)]
          else [.entry (beforeSlot es).length new])) (l.rootDirStart * 512) (fill new es) := by
  obtain ⟨x, tail, htail⟩ := List.exists_cons_of_ne_nil hslot
  have hsplit : es = beforeSlot es ++ x :: tail := by
    rw [← htail]
    exact List.takeWhile_append_dropWhile.symm
  have hset : es.set (beforeSlot es).length new = beforeSlot es ++ new :: tail := by
    conv_lhs => rw [hsplit]
    rw [List.set_append_right _ _ (Nat.le_of_eq (by rw [← hsplit]))]
    simp [← hsplit]
  have hnewAt := h.set (i := (beforeSlot es).length) hnew
  have hlength : (beforeSlot es ++ new :: tail).length = es.length := by
    rw [← hset, List.length_set]
  rw [hset] at hnewAt
  rw [Fat.fill, htail, List.tail_cons]
  cases tail with
  | nil => exact ⟨hlength, hnewAt⟩
  | cons next rest =>
    refine ⟨by simpa [endMark] using hlength, ?_⟩
    dsimp only
    split
    · have hend := hnewAt.end (i := (beforeSlot es).length + 1) (e := next) (by simp)
      have hlist : (beforeSlot es ++ new :: next :: rest).set ((beforeSlot es).length + 1)
          { next with first := 0x00 } = beforeSlot es ++ new :: endMark (next :: rest) := by
        simp [endMark]
      rw [hlist] at hend
      exact hend
    · next hzero =>
      have hsame : endMark (next :: rest) = next :: rest := by
        rw [endMark, ← not_not.1 hzero]
      rw [hsame]
      exact hnewAt

theorem Follows.insert (h : Follows l m fs') {new : DirEntry} {root : List (List DirEntry)}
    (hroot : fs'.root = fs.root) (hwidth : fs'.width = fs.width) (hnew : new.Fits)
    (hinsert : fs.insertRoot new = some root) :
    Follows l m { fs' with root := root, log := fs'.log ++ fs.insertStores new } := by
  refine h.withRoot (rooted_insertStores _ _) fun hw es M hes harray => ?_
  rw [hwidth] at hw
  rw [hroot] at hes
  unfold Fs.insertRoot at hinsert
  unfold Fs.insertStores
  cases hkind : fs.width with
  | fat32 => exact absurd hkind hw
  | fat12 | fat16 =>
    rw [hkind, hes] at hinsert
    simp only [Option.map_eq_some_iff, fixedInsert] at hinsert
    obtain ⟨es', hes', rfl⟩ := hinsert
    split_ifs at hes' with hslot
    cases hes'
    rw [hes]
    exact ⟨_, rfl, harray.fill hnew hslot⟩

theorem fits_newEntry (name : List UInt8) (attr : UInt8) (c : Nat) (w : Width) :
    (newEntry (toShortName name) attr c w).Fits := by
  refine ⟨?_, ?_, Nat.mod_lt _ (by decide), (by decide : 0 < 2 ^ 32)⟩
  · show (toShortName name).2.length = 10
    simp only [toShortName, padded, List.length_tail, List.length_append, List.length_map,
      List.length_take, List.length_replicate]
    omega
  · unfold newEntry
    dsimp only
    split
    · exact Nat.mod_lt _ (by decide)
    · decide

/-! ## One call -/

theorem Follows.stores (h : Follows l m fs) (hstores : Fs.Stores fs fs') : Follows l m fs' := by
  induction hstores with
  | refl => exact h
  | set _ c value ih => exact ih.setFatEntry c value
  | modify _ sname hf ih => exact ih.modifyEntry sname hf

/-- **Every call stores what it changes.** -/
theorem Follows.exec (h : Follows l m fs) (op : Fs.Op) : Follows l m (fs.exec op) := by
  cases op with
  | createFile name =>
    unfold Fs.exec Fs.fatCreateFile
    dsimp only
    split
    · exact h
    split
    · exact h
    split
    · exact h
    · next hinsert => exact h.insert rfl rfl (fits_newEntry ..) hinsert
  | mkdir name ok =>
    unfold Fs.exec Fs.fatMkdir
    dsimp only
    split
    · exact h
    split
    · exact h
    split
    · exact h
    · exact h
    · next root c hinsert hfree =>
      have hset := h.setFatEntry c (Fs.eocMark fs.width)
      have hroot : (fs.setFatEntry c (Fs.eocMark fs.width)).root = fs.root := by
        unfold Fs.setFatEntry
        split <;> rfl
      split
      · exact hset.insert hroot (Fs.sameShape_set ..).width (fits_newEntry ..) hinsert
      · exact hset.setFatEntry c 0
  | rm name empty =>
    unfold Fs.exec Fs.fatRm
    dsimp only
    split
    · exact h
    split
    · exact h
    split
    · exact h
    split
    · exact h
    · exact h.stores ((Fs.stores_freed ..).trans (Fs.Stores.refl.modify _ Fs.keepsFits_delete))
  | writeFile name size oks => exact h.stores (Fs.stores_write ..)
  | appendFile name size oks => exact h.stores (Fs.stores_append ..)

namespace Vol

variable {v : Vol}

theorem apply_eq (v : Vol) (s : Store) : (v.apply s).fs = v.fs ∧
    (v.apply s).image = storeInto v.fs.width v.layout v.image s := by
  have hmark : ∀ (u : Vol) (lba : Nat), (u.mark lba).fs = u.fs := by
    intro u lba
    unfold mark
    split <;> rfl
  cases s with
  | fat c value =>
    refine ⟨?_, (markFat_eq ..).1⟩
    unfold apply markFat
    dsimp only
    split <;> simp only [hmark]
  | entry i e => exact ⟨hmark .., (mark_eq ..).1⟩
  | endMark i => exact ⟨rfl, rfl⟩

theorem foldl_apply_image (log : List Store) (v : Vol) :
    (log.foldl apply v).image = log.foldl (storeInto v.fs.width v.layout) v.image := by
  induction log generalizing v with
  | nil => rfl
  | cons s log ih =>
    rw [List.foldl_cons, ih, apply_layout, (apply_eq v s).1, (apply_eq v s).2, List.foldl_cons]

/-- **The volume is what its image shows**: the parts of the image are apart, it shows the volume,
and all stores are made. -/
structure Faithful (v : Vol) : Prop where
  placed : Placed v.layout v.fs
  shows : Shows v.layout v.image v.fs
  log : v.fs.log = []

theorem exec_fs (hlog : v.fs.log = []) (op : Fs.Op) :
    (v.exec op).fs = { v.fs.exec op with log := [] } := by
  have heta : ({ v.fs with log := [] } : Fs) = v.fs := by
    rw [← hlog]
  rw [exec, heta]

/-- **Every call keeps the image in step** with the table and the root. -/
theorem Faithful.exec (h : Faithful v) (op : Fs.Op) : Faithful (v.exec op) := by
  have hfollows : Follows v.layout v.image { v.fs with log := [] } :=
    ⟨h.placed.congr ⟨rfl, rfl, rfl, rfl⟩ fun _ => rfl, h.shows.table, h.shows.root⟩
  have hcall := hfollows.exec op
  have hwidth : ({ v.fs with log := [] }.exec op).width = v.fs.width :=
      (Fs.sameShape_exec _ op).width
  have himage : (v.exec op).image =
      ({ v.fs with log := [] }.exec op).log.foldl (storeInto v.fs.width v.layout) v.image :=
    foldl_apply_image ..
  rw [Follows, hwidth, ← himage] at hcall
  have hlayout := exec_layout v op
  refine ⟨?_, ?_, rfl⟩
  · rw [hlayout]
    exact hcall.1.congr ⟨rfl, rfl, rfl, rfl⟩ fun _ => rfl
  · rw [hlayout]
    exact ⟨hcall.2.table, hcall.2.root⟩

/-- The volumes of one sector for each part show what they hold. -/
theorem faithful_ofSmall {b n : UInt8} (hwidth : fs.width = .fat12) (hmax : fs.maxCluster ≤ 341)
    (hroot : fs.root = [es]) (hlength : es.length ≤ 16) (hfits : ∀ e ∈ es, e.Fits)
    (htable : ∀ c, fs.fat c = 257 * b.toNat / 16 ∧ fs.fat c = 257 * b.toNat % 4096)
    (hn : 0 < n.toNat)
    (hlog : fs.log = []) : Faithful (ofSmall fs b n) := by
  refine ⟨⟨fun c hc => ?_, hn, congrArg (1 + ·) (Nat.mul_one _), ?_, fun _ => ?_⟩,
    ⟨fun c hc => ?_, ?_⟩, hlog⟩
  · have hlt : c < fs.maxCluster := hc.2
    show fatOffset fs.width c + fatSpan fs.width ≤ 1 * 512
    simp only [hwidth, fatOffset, fatSpan]
    omega
  · exact Nat.add_le_add_right (by decide) _
  · show (1 + n.toNat) * 512 + 32 * (fs.root.headD []).length ≤ (2 + n.toNat) * 512
    rw [hroot, List.headD_cons]
    omega
  · have hlt : c < fs.maxCluster := hc.2
    have hbyte : ∀ k < 512, smallBytes fs b n (512 + k) = b := by
      intro k hk
      rw [smallBytes, if_neg (by omega), if_pos (by omega)]
    show rawFat fs.width (smallBytes fs b n) (1 * 512) c = fs.fat c
    rw [Nat.one_mul]
    have hfirst := hbyte (c + c / 2) (by omega)
    have hsecond := hbyte (c + c / 2 + 1) (by omega)
    rw [← Nat.add_assoc] at hsecond
    simp only [hwidth, rawFat, fatOffset, hfirst, hsecond]
    have := htable c
    split <;> omega
  · refine fun _ => ⟨es, hroot, fun i e he => ⟨hfits e (List.mem_of_getElem? he), fun k hk => ?_⟩⟩
    have hi : i < es.length := (List.getElem?_eq_some_iff.1 he).1
    show smallBytes fs b n ((1 + n.toNat) * 512 + 32 * i + k) = e.encode k
    have hoff : (1 + n.toNat) * 512 + 32 * i + k - (1 + n.toNat) * 512 = 32 * i + k := by omega
    rw [smallBytes, if_neg (by omega), if_neg (by omega), if_pos (by omega), hoff, hroot,
      List.headD_cons, encodeArray, show (32 * i + k) / 32 = i by omega,
      show (32 * i + k) % 32 = k by omega, he]

/-! ## The frame of a new entry -/

/-- The call that makes an entry. -/
def makeOp (name : Fs.CString) : Fs.Maker → Fs.Op
  | .file => .createFile name
  | .dir ok => .mkdir name ok

/-- **A new file or directory leaves the other names of the root alone exactly when** its short
name does not start with 0xE5 and no name of the root is lost behind the slot it takes. -/
theorem framed_iff_of_make {name : Fs.CString} {k : Fs.Maker} (h : Faithful v)
    (hmake : (v.fs.make name.1 k).1 = 0) :
    Faithful (v.exec (makeOp name k)) ∧
      (Framed v.fs.root (v.exec (makeOp name k)).fs.root (toShortName name.1) ↔
        (toShortName name.1).1 ≠ 0xE5 ∧ v.fs.Spared) := by
  have hroot : (v.exec (makeOp name k)).fs.root = (v.fs.make name.1 k).2.root := by
    rw [exec_fs h.log]
    cases k <;> rfl
  rw [hroot]
  exact ⟨h.exec _, Fs.framed_iff_spared name.2 (Prod.ext hmake rfl)⟩

/-- The name `C`. -/
def nameC : Fs.CString := ⟨[67], by simp⟩

/-- A root with these entries. -/
def rootOf (first : List UInt8) : Vol := ofSmall (Fs.volume first) 0 1

theorem faithful_rootOf {first : List UInt8} (h : first.length ≤ 14) : Faithful (rootOf first) := by
  refine faithful_ofSmall rfl (by decide : 12 ≤ 341) rfl ?_ (fun e he => ?_) (fun _ => ⟨rfl, rfl⟩)
    (by decide) rfl
  · rw [List.length_append, List.length_map]
    exact Nat.add_le_add_right h 2
  · have hentry : ∃ a, e = Fs.entryOf a := by
      simp only [List.mem_append, List.mem_map, List.mem_cons, List.not_mem_nil, or_false,
        or_self] at he
      rcases he with ⟨a, -, rfl⟩ | rfl
      · exact ⟨a, rfl⟩
      · exact ⟨0, rfl⟩
    obtain ⟨a, rfl⟩ := hentry
    exact ⟨rfl, (by decide : 0 < 2 ^ 16), (by decide : 0 < 2 ^ 16), (by decide : 0 < 2 ^ 32)⟩

/-- A directory `C` is made in place of a deleted entry behind `A` and `B`. -/
theorem framed_iff_of_make_last :
    ((rootOf [65, 66, 0xE5]).fs.make nameC.1 (.dir true)).1 = 0 ∧
      Framed (rootOf [65, 66, 0xE5]).fs.root
        ((rootOf [65, 66, 0xE5]).exec (makeOp nameC (.dir true))).fs.root
          (toShortName nameC.1) := by
  have hmake : ((rootOf [65, 66, 0xE5]).fs.make nameC.1 (.dir true)).1 = 0 := rfl
  have hframed := framed_iff_of_make (faithful_rootOf (by decide)) hmake
  exact ⟨hmake, hframed.2.2 ⟨by decide, by decide⟩⟩

/-- **An entry in place of a deleted one hides the entry behind it**: `B` is no longer found. -/
theorem not_framed_deleted :
    Faithful (rootOf [65, 0xE5, 66]) ∧ Fs.WellFormed (rootOf [65, 0xE5, 66]).fs.root ∧
      ((rootOf [65, 0xE5, 66]).fs.make nameC.1 .file).1 = 0 ∧
      ((rootOf [65, 0xE5, 66]).fs.make nameC.1 (.dir true)).1 = 0 ∧
      ¬ Framed (rootOf [65, 0xE5, 66]).fs.root
        ((rootOf [65, 0xE5, 66]).exec (makeOp nameC .file)).fs.root (toShortName nameC.1) ∧
      ¬ Framed (rootOf [65, 0xE5, 66]).fs.root
        ((rootOf [65, 0xE5, 66]).exec (makeOp nameC (.dir true))).fs.root
          (toShortName nameC.1) := by
  refine ⟨faithful_rootOf (by decide), by unfold Fs.WellFormed; decide, rfl, rfl, fun h => ?_,
    fun h => ?_⟩
  · have hfound := h.1 (66, List.replicate 10 32) (Fs.entryOf 66) rfl
    revert hfound
    decide
  have hfound := h.1 (66, List.replicate 10 32) (Fs.entryOf 66) rfl
  revert hfound
  decide

/-! ## Chains -/

/-- An allowed call on the volume. -/
def Allowed (v : Vol) (op : Fs.Op) : Prop := v.fs.Allowed op

/-- **The chains stay separate** in every history whose calls are all allowed, and the image shows
them. -/
theorem separate_of_run {ops : List Fs.Op} (h : Faithful v) (hsized : v.fs.Sized)
    (hsep : v.fs.Separate)
    (hmeets : Run.Meets exec Allowed v ops) :
    Faithful (Run.run exec v ops) ∧ (Run.run exec v ops).fs.Separate := by
  have hinv : Faithful (Run.run exec v ops) ∧ (Run.run exec v ops).fs.Sized ∧
      (Run.run exec v ops).fs.Separate := by
    refine hmeets.invariant (I := fun v => Faithful v ∧ v.fs.Sized ∧ v.fs.Separate)
      (fun v op hv hop => ?_) ⟨h, hsized, hsep⟩
    obtain ⟨hfaithful, hsized, hsep⟩ := hv
    have hfs := exec_fs hfaithful.log op
    refine ⟨hfaithful.exec op, ?_, ?_⟩
    · rw [hfs]
      exact (Fs.sameShape_exec v.fs op).sized hsized
    · rw [hfs]
      exact (hsep.exec hsized hop).unchanged ⟨⟨rfl, rfl, rfl, rfl⟩, rfl, fun _ => rfl⟩
  exact ⟨hinv.1, hinv.2.2⟩

/-- Two files of one cluster each on a volume that has two clusters. -/
def full : Vol :=
  ofSmall ⟨.fat12, 4, 1, fun _ => 0xFFF,
    [[⟨65, List.replicate 10 32, 0x20, [], 0, 2, 512⟩,
    ⟨66, List.replicate 10 32, 0x20, [], 0, 3, 512⟩]],
    [], []⟩ 0xFF 1

theorem faithful_full : Faithful full := by
  refine faithful_ofSmall rfl (by decide) rfl (by decide) (fun e he => ?_) (fun _ => ⟨rfl, rfl⟩)
    (by decide) rfl
  simp only [List.mem_cons, List.not_mem_nil, or_false] at he
  rcases he with rfl | rfl
  · exact ⟨rfl, by decide, by decide, by decide⟩
  · exact ⟨rfl, by decide, by decide, by decide⟩

theorem separate_full : full.fs.Separate := by
  refine ⟨[[2], [3]], .cons ?_ (.cons ?_ .nil), by decide, by simp [full, ofSmall]⟩
  · exact .last (by decide) (by decide)
  · exact .last (by decide) (by decide)

theorem sized_full : full.fs.Sized := by
  unfold Fs.Sized
  decide

/-- The name `A`. -/
def nameA : Fs.CString := ⟨[65], by simp⟩

/-- The name `B`. -/
def nameB : Fs.CString := ⟨[66], by simp⟩

/-- `A` is written again, removed and its cluster given to `B`. -/
def reuse : List Fs.Op :=
  [.writeFile nameA 300 (fun _ => true), .rm nameA true, .appendFile nameB 100 fun _ => true]

/-- The history is allowed. -/
theorem separate_of_run_reuse :
    Run.Meets exec Allowed full reuse ∧ Faithful (Run.run exec full reuse) ∧
      (Run.run exec full reuse).fs.Separate := by
  have hmeets : Run.Meets exec Allowed full reuse := by
    refine ⟨fun e he _ _ => ?_, trivial, fun _ _ _ _ => rfl, trivial⟩
    cases he
    exact ⟨by decide, fun _ _ => rfl⟩
  exact ⟨hmeets, separate_of_run faithful_full sized_full separate_full hmeets⟩

/-- **A write that runs out of clusters** leaves `A` with the cluster that was freed before. -/
theorem not_separate_noSpace :
    Faithful full ∧ full.fs.Sized ∧ full.fs.Separate ∧
      (full.fs.fatWriteFile [65] 1024 fun _ => true).1 = -1 ∧
      ¬ (full.exec (.writeFile nameA 1024 fun _ => true)).fs.Separate := by
  refine ⟨faithful_full, sized_full, separate_full, by decide, fun h => ?_⟩
  obtain ⟨ls, hls, -⟩ := h
  have hshown : shown (full.exec (.writeFile nameA 1024 fun _ => true)).fs.root =
      shown full.fs.root := by
    decide
  rw [hshown] at hls
  have hfree : (full.exec (.writeFile nameA 1024 fun _ => true)).fs.getFatEntry 2 = 0 := by decide
  cases hls with
  | cons he _ =>
    have hchain : Fs.IsChain (full.exec (.writeFile nameA 1024 fun _ => true)).fs 2 _ := he
    exact hchain.ne_zero 2 hchain.isPath.mem_self hfree

/-! ## Histories after `fat_init` -/

open Boot

/-- **The volume as `fat_init` leaves it**: its numbers are those of the boot sector, the image
holds the metadata of the device, and the table and the root are what the image and the clusters of
the root show. -/
structure Mounted (d : Device) (v : Vol) : Prop where
  layout : v.layout = ⟨fatStart d.bytes, sectorsPerFat d.bytes, numFats d.bytes,
    rootDirStart d.bytes,
    dataStart d.bytes⟩
  width : v.fs.width = Boot.width d.bytes
  maxCluster : v.fs.maxCluster = Boot.maxCluster d.bytes
  clusterSize : v.fs.clusterSize = Boot.clusterSize d.bytes
  image : v.image = fun a => if a < dataStart d.bytes * 512 then d.bytes a else d.behind a
  disk : v.disk = d.bytes
  clean : ∀ i, v.dirty i = false
  shows : Shows v.layout v.image v.fs
  entries : v.fs.width ≠ .fat32 → (v.fs.root.headD []).length = readLe16 d.bytes 17
  chain : v.fs.width = .fat32 →
    v.fs.rootChain = Boot.rootChain d.bytes v.image 128 (rootCluster d.bytes)
  root : v.fs.width = .fat32 → List.Forall₂ (fun c es => es.length = v.fs.clusterSize * 16 ∧
    ArrayAt d.bytes (v.rootLba c * 512) es) v.fs.rootChain v.fs.root
  log : v.fs.log = []

/-- The root of FAT32 does not leave the volume and does not come back to a cluster. -/
def RootChained (v : Vol) : Prop :=
  v.fs.width = .fat32 → v.fs.rootChain.Nodup ∧ ∀ c ∈ v.fs.rootChain, v.fs.InRange c

variable {d : Device}

/-- The tables end where the root begins, and the root where the data begins. -/
theorem regions_of_sound {m : Bytes} (h : Boot.Sound m) :
    fatStart m + numFats m * sectorsPerFat m = rootDirStart m ∧
      rootDirStart m + rootSectors m = dataStart m := by
  have hregions := h.regions
  have hlt : dataStart m < 2 ^ 32 := Nat.mod_lt _ (by decide)
  have hroot : fatStart m + numFats m * sectorsPerFat m = rootDirStart m :=
    (Nat.mod_eq_of_lt (by omega)).symm
  exact ⟨hroot, by omega⟩

/-- **What is mounted from a sound boot sector is faithful.** -/
theorem Mounted.faithful (hinit : fatInit d = .ok ()) (hsound : Boot.Sound d.bytes)
    (h : Mounted d v) :
    Faithful v := by
  obtain ⟨-, hsome, -⟩ := of_fatInit hinit
  obtain ⟨hfats, hroot⟩ := regions_of_sound hsound
  refine ⟨⟨fun c hc => ?_, ?_, ?_, ?_, fun hw => ?_⟩, h.shows, h.log⟩
  · rw [h.width, h.layout]
    exact hsound.entries c (h.maxCluster ▸ hc.2)
  · rw [h.layout]
    exact Nat.pos_of_ne_zero hsome
  · rw [h.layout]
    exact hfats
  · rw [h.layout]
    exact hroot ▸ Nat.le_add_right ..
  · rw [h.entries hw, h.layout]
    dsimp only
    rw [← hroot, rootSectors]
    omega

theorem totalSectors_lt (m : Bytes) : totalSectors m < 2 ^ 32 := by
  have h16 : ∀ a, readLe16 m a < 2 ^ 16 := by
    intro a
    have hlow := (m a).toNat_lt
    have hhigh := (m (a + 1)).toNat_lt
    unfold readLe16
    omega
  have hlow := h16 32
  have hhigh := h16 (32 + 2)
  have hshort := h16 19
  unfold totalSectors readLe32
  split <;> omega

/-- A cluster of the volume ends within its sectors. -/
theorem cluster_le {m : Bytes} (hdata : dataStart m < totalSectors m) {c : Nat} (htwo : 2 ≤ c)
    (hc : c < Boot.maxCluster m) :
    dataStart m + (c - 2) * Boot.clusterSize m + Boot.clusterSize m ≤ 2 ^ 32 := by
  have hmax : Boot.maxCluster m ≤ countOfClusters m + 2 := Nat.mod_le ..
  have hcount : countOfClusters m * Boot.clusterSize m ≤ totalSectors m - dataStart m :=
    Nat.div_mul_le_self ..
  have hle : (c - 2 + 1) * Boot.clusterSize m ≤ countOfClusters m * Boot.clusterSize m :=
    Nat.mul_le_mul_right _ (by omega)
  have htotal := totalSectors_lt m
  rw [Nat.add_mul, Nat.one_mul] at hle
  omega

theorem Mounted.rootApart (hinit : fatInit d = .ok ()) (h : Mounted d v)
    (hchained : RootChained v) :
    RootApart v := by
  obtain ⟨-, -, hdata, -⟩ := of_fatInit hinit
  refine fun hw => ⟨(hchained hw).1, fun c hc => ?_⟩
  obtain ⟨htwo, hlt⟩ := (hchained hw).2 c hc
  rw [h.layout, h.clusterSize]
  exact ⟨htwo, cluster_le hdata htwo (h.maxCluster ▸ hlt)⟩

theorem Mounted.sound (hsound : Boot.Sound d.bytes) (h : Mounted d v)
    (htables : SameTables v.layout v.image) :
    Sound v := by
  refine ⟨fun a ha _ => ?_, htables, ?_⟩
  · rw [h.layout] at ha
    rw [h.disk, h.image]
    exact (if_pos ha).symm
  · rw [h.layout]
    exact (regions_of_sound hsound).1

/-- A call leaves the place of the root alone. -/
theorem RootApart.exec (h : RootApart v) (op : Fs.Op) : RootApart (v.exec op) := by
  have hshape := Fs.sameShape_exec { v.fs with log := [] } op
  intro hw
  have hfs : (v.exec op).fs.rootChain = v.fs.rootChain ∧
      (v.exec op).fs.clusterSize = v.fs.clusterSize ∧
      (v.exec op).fs.width = v.fs.width := ⟨hshape.rootChain, hshape.clusterSize, hshape.width⟩
  rw [exec_layout, hfs.1, hfs.2.1]
  exact h (hfs.2.2 ▸ hw)

/-- **Whatever reached the image reaches the device**: after `fat_init` and a history whose calls
all meet the condition, `fat_sync` leaves the metadata on the device. -/
theorem durable_of_run {ops : List Fs.Op} (hinit : fatInit d = .ok ()) (hmount : Mounted d v)
    (htables : SameTables v.layout v.image) (hsound : Boot.Sound d.bytes) (hchained : RootChained v)
    (hmeets : Run.Meets exec Reaches v ops) :
    Faithful (Run.run exec v ops) ∧ Durable (Run.run exec v ops).fatSync := by
  obtain ⟨hsize, -⟩ := of_fatInit hinit
  have hinv : Faithful (Run.run exec v ops) ∧ Sound (Run.run exec v ops) ∧
      RootApart (Run.run exec v ops) ∧ 0 < (Run.run exec v ops).fs.clusterSize := by
    refine hmeets.invariant
      (I := fun v => Faithful v ∧ Sound v ∧ RootApart v ∧ 0 < v.fs.clusterSize)
      (fun v op h hreach => ⟨h.1.exec op, h.2.1.exec hreach, h.2.2.1.exec op, ?_⟩) ?_
    · exact Nat.lt_of_lt_of_eq h.2.2.2
        (Fs.sameShape_exec { v.fs with log := [] } op).clusterSize.symm
    · refine ⟨hmount.faithful hinit hsound, hmount.sound hsound htables,
        hmount.rootApart hinit hchained, ?_⟩
      rw [hmount.clusterSize]
      exact Nat.pos_of_ne_zero hsize
  obtain ⟨hfaithful, hclean, hroot, hpos⟩ := hinv
  exact ⟨hfaithful, hclean.durable_fatSync hfaithful.placed.inside hpos hroot⟩

/-- The device under `small n`. -/
def smallDevice (n : UInt8) : Device where
  bytes := smallBytes (Fs.volume [65]) 0 n
  totalSectors := 100
  read _ _ := true
  mem _ := true
  behind _ := 0

theorem sameTables_small (n : UInt8) : SameTables (small n).layout (small n).image := by
  have hzero : ∀ k < n.toNat * 512, smallBytes (Fs.volume [65]) 0 n (512 + k) = 0 := by
    intro k hk
    rw [smallBytes, if_neg (by omega), if_pos (by omega)]
  have hsame : ∀ j < n.toNat, ∀ k < 512, smallBytes (Fs.volume [65]) 0 n ((1 + j * 1) * 512 + k) =
      smallBytes (Fs.volume [65]) 0 n (1 * 512 + k) := by
    intro j hj k hk
    have hfirst : k < n.toNat * 512 := by omega
    rw [show (1 + j * 1) * 512 + k = 512 + (j * 512 + k) by omega, hzero _ (by omega), Nat.one_mul,
      hzero k hfirst]
  exact fun j hj k hk => hsame j hj k (Nat.lt_of_lt_of_eq hk (Nat.one_mul 512))

theorem mounted_small {n : UInt8} (hn : n = 1 ∨ n = 2) : Mounted (smallDevice n) (small n) := by
  have hfaithful : Faithful (small n) := by
    refine faithful_ofSmall rfl (by decide) rfl (by decide) (fun e he => ?_) (fun _ => ⟨rfl, rfl⟩)
      (by rcases hn with rfl | rfl <;> decide) rfl
    simp only [List.map_cons, List.map_nil, List.cons_append, List.nil_append, List.mem_cons,
      List.not_mem_nil, or_false, or_self] at he
    rcases he with rfl | rfl
    · exact ⟨rfl, by decide, by decide, by decide⟩
    · exact ⟨rfl, by decide, by decide, by decide⟩
  have hnumbers : dataStart (smallDevice n).bytes = 2 + n.toNat := by
    rcases hn with rfl | rfl <;> decide +kernel
  refine ⟨?_, ?_, ?_, ?_, ?_, rfl, fun _ => rfl, hfaithful.shows, fun _ => ?_, fun hw => ?_,
    fun hw => ?_, rfl⟩
  · rcases hn with rfl | rfl <;> rfl
  · rcases hn with rfl | rfl <;> decide +kernel
  · rcases hn with rfl | rfl <;> decide +kernel
  · rcases hn with rfl | rfl <;> decide +kernel
  · funext a
    rw [hnumbers]
    show smallBytes (Fs.volume [65]) 0 n a = if a < (2 + n.toNat) * 512 then
      smallBytes (Fs.volume [65]) 0 n a else 0
    split
    · rfl
    · next hbehind =>
      have htables : ¬ a < (1 + n.toNat) * 512 := fun h => hbehind (Nat.lt_of_lt_of_le h
        (Nat.mul_le_mul_right 512 (Nat.add_le_add_right (by decide) _)))
      rw [smallBytes, if_neg (by omega), if_neg htables, if_neg hbehind]
  · rcases hn with rfl | rfl <;> decide +kernel
  · cases hw
  · cases hw

/-- A file and a directory are made on a volume with one table. -/
def fileAndDir : List Fs.Op := [.createFile nameB, .mkdir nameC true]

/-- The history meets the condition. -/
theorem durable_of_run_fileAndDir :
    Run.Meets exec Reaches (small 1) fileAndDir ∧
      Durable (Run.run exec (small 1) fileAndDir).fatSync := by
  have hmeets : Run.Meets exec Reaches (small 1) fileAndDir :=
    ⟨⟨.inl rfl, .inr (.inl (by decide))⟩, ⟨.inl rfl, .inr (.inl (by decide))⟩, trivial⟩
  have hinit : fatInit (smallDevice 1) = .ok () := by decide +kernel
  have hsound : Boot.Sound (smallDevice 1).bytes :=
    ⟨by decide +kernel, by decide +kernel, fun hw => absurd hw (by decide +kernel)⟩
  have hdurable := durable_of_run hinit (mounted_small (.inl rfl)) (sameTables_small 1) hsound
    (fun hw => by cases hw) hmeets
  exact ⟨hmeets, hdurable.2⟩

/-- **The second table stays behind**: a directory is made, and the entry of its cluster is missing
from the second table on the device. -/
theorem not_durable_twoTables :
    fatInit (smallDevice 2) = .ok () ∧ Mounted (smallDevice 2) (small 2) ∧
      SameTables (small 2).layout (small 2).image ∧
      ¬ Durable ((small 2).exec (.mkdir nameC true)).fatSync := by
  refine ⟨by decide +kernel, mounted_small (.inr rfl), sameTables_small 2, fun h => ?_⟩
  have hbyte := h.image (2 * 512 + 3) (by decide)
  revert hbyte
  decide

end Vol

end Fat
