import LufiraOS.Lib.Split
import LufiraOS.Users.Core

/-!
# The user database against its files

A line that is built from a well-formed entry is parsed back to that entry: each field is read
up to the separator that follows it.  A line appended to a file whose last line is complete is one
more line of it.  So the tables and the files stay together over every run of calls that keep the
separators out of the names.
-/

namespace Users

open List hiding Vector

variable {s f name : Str} {n : Nat} {u : User} {db db' : Db} {gid : UInt32} {short : Option Str}

/-! ### Numbers as text -/

/-- The bytes that end a field, a line or a string. -/
def Plain (s : Str) : Prop := (58 : UInt8) ∉ s ∧ (10 : UInt8) ∉ s ∧ (0 : UInt8) ∉ s

theorem plain_of_forall (h : ∀ c ∈ s, 48 ≤ c.toNat ∧ c.toNat ≠ 58) : Plain s := by
  refine ⟨fun hc => ?_, fun hc => ?_, fun hc => ?_⟩
  · exact (h _ hc).2 rfl
  · exact absurd (h _ hc).1 (by decide)
  · exact absurd (h _ hc).1 (by decide)

theorem toNat_digit {d : Nat} (hd : d < 10) : (UInt8.ofNat (48 + d)).toNat = 48 + d := by
  rw [UInt8.toNat_ofNat']
  omega

theorem mem_decDigits {v : Nat} {c : UInt8} (h : c ∈ decDigits n v) : isDigit c = true := by
  have hdigit : ∀ d, d < 10 → isDigit (UInt8.ofNat (48 + d)) = true := by
    intro d hd
    unfold isDigit
    rw [toNat_digit hd]
    simp
    omega
  induction n generalizing v with
  | zero => cases h
  | succ n ih =>
    unfold decDigits at h
    split at h
    · rename_i hv
      rw [mem_singleton.1 h]
      exact hdigit v hv
    rcases mem_append.1 h with h | h
    · exact ih h
    · rw [mem_singleton.1 h]
      exact hdigit _ (Nat.mod_lt _ (by decide))

theorem plain_formatDec (v : UInt32) : Plain (formatDec v) := by
  refine plain_of_forall fun c hc => ?_
  have hdigit := mem_decDigits hc
  unfold isDigit at hdigit
  simp only [Bool.and_eq_true, decide_eq_true_eq] at hdigit
  omega

/-- The digits are read back. -/
theorem foldl_decDigits {v : Nat} (hv : v < 10 ^ n) (hv' : v < 2 ^ 32) :
    (decDigits n v).foldl (fun r c => (r * 10 + (c.toNat - 48)) % 2 ^ 32) 0 = v := by
  induction n generalizing v with
  | zero =>
    have hzero : v = 0 := by simpa using hv
    rw [hzero]
    rfl
  | succ n ih =>
    unfold decDigits
    split
    · rename_i hlt
      rw [foldl_cons, foldl_nil, toNat_digit hlt]
      omega
    have hdiv : v / 10 < 10 ^ n := by
      rw [Nat.pow_succ] at hv
      exact Nat.div_lt_of_lt_mul (by omega)
    rw [foldl_append, ih hdiv (by omega), foldl_cons, foldl_nil,
      toNat_digit (Nat.mod_lt _ (by decide))]
    omega

/-- A number is read back from its decimal digits. -/
theorem atoi_formatDec (v : UInt32) : atoi (formatDec v) = v := by
  have hlt : v.toNat < 2 ^ 32 := v.toNat_lt
  have hhead : (formatDec v).head? ≠ some 45 := by
    intro h
    have hdigit := mem_decDigits (mem_of_mem_head? h)
    revert hdigit
    decide
  have htake : (formatDec v).takeWhile isDigit = formatDec v :=
    takeWhile_eq_self_iff.2 fun c hc => mem_decDigits hc
  unfold atoi
  rw [if_neg hhead]
  unfold decValue
  rw [htake, formatDec, foldl_decDigits (by omega) hlt, UInt32.ofNat_toNat]

theorem hexDigit_spec {d : Nat} (hd : d < 16) :
    hexVal (hexDigit d) = some d ∧ 48 ≤ (hexDigit d).toNat ∧ (hexDigit d).toNat ≠ 58 := by
  have hall : ∀ d < 16, hexVal (hexDigit d) = some d ∧ 48 ≤ (hexDigit d).toNat ∧
      (hexDigit d).toNat ≠ 58 := by decide
  exact hall d hd

theorem plain_formatHex8 (v : UInt32) : Plain (formatHex8 v) := by
  refine plain_of_forall fun c hc => ?_
  obtain ⟨i, -, rfl⟩ := mem_map.1 hc
  exact (hexDigit_spec (Nat.mod_lt _ (by decide))).2

/-- And from its eight hexadecimal ones. -/
theorem hexToInt_formatHex8 (v : UInt32) : hexToInt (formatHex8 v) = v := by
  have hlt : v.toNat < 2 ^ 32 := v.toNat_lt
  have hval : ∀ k, hexVal (hexDigit (k % 16)) = some (k % 16) :=
    fun k => (hexDigit_spec (Nat.mod_lt _ (by decide))).1
  have hall : ∀ c ∈ formatHex8 v, (hexVal c).isSome = true := by
    intro c hc
    obtain ⟨i, -, rfl⟩ := mem_map.1 hc
    rw [hval]
    rfl
  unfold hexToInt
  rw [takeWhile_eq_self_iff.2 hall]
  have hsum : (formatHex8 v).foldl (fun r c => (r * 16 + (hexVal c).getD 0) % 2 ^ 32) 0 =
      v.toNat := by
    simp only [formatHex8, List.range, List.range.loop, map_cons, map_nil,
      foldl_cons, foldl_nil, hval, Option.getD_some]
    norm_num
    omega
  rw [hsum, UInt32.ofNat_toNat]

theorem plain_bytesToHex (bytes : List UInt8) : Plain (bytesToHex bytes) := by
  refine plain_of_forall fun c hc => ?_
  obtain ⟨b, -, hc⟩ := mem_flatMap.1 hc
  have hb : b.toNat < 256 := b.toNat_lt
  rcases mem_cons.1 hc with rfl | hc
  · exact (hexDigit_spec (by omega)).2
  · rw [mem_singleton.1 hc]
    exact (hexDigit_spec (by omega)).2

/-- Bytes are read back from their hexadecimal digits. -/
theorem hexToBytes_bytesToHex (bytes : List UInt8) :
    hexToBytes bytes.length (bytesToHex bytes) = bytes := by
  induction bytes with
  | nil => rfl
  | cons b bytes ih =>
    have hb : b.toNat < 256 := b.toNat_lt
    have hhi := (hexDigit_spec (d := b.toNat / 16) (by omega)).1
    have hlo := (hexDigit_spec (d := b.toNat % 16) (by omega)).1
    have hbyte : b.toNat / 16 * 16 + b.toNat % 16 = b.toNat := by omega
    show hexToBytes (bytes.length + 1) (_ :: _ :: bytesToHex bytes) = _
    unfold hexToBytes
    rw [hhi, hlo]
    dsimp only
    rw [ih, hbyte, UInt8.ofNat_toNat]

/-! ### Fields -/

/-- A field ends at the first colon. -/
theorem splitFields_append {a : Str} (ha : (58 : UInt8) ∉ a) (n : Nat) (rest : Str) :
    splitFields (n + 2) (a ++ 58 :: rest) = a :: splitFields (n + 1) rest := by
  have hall : ∀ c ∈ a, (decide (c ≠ 58)) = true := by
    intro c hc
    exact decide_eq_true fun h => ha (h ▸ hc)
  have hdrop : (a ++ 58 :: rest).dropWhile (fun c => decide (c ≠ 58)) = 58 :: rest := by
    rw [dropWhile_append_of_pos hall]
    rfl
  have htake : (a ++ 58 :: rest).takeWhile (fun c => decide (c ≠ 58)) = a := by
    rw [takeWhile_append_of_pos hall]
    simp
  rw [splitFields, hdrop, htake]

theorem mem_splitFields (h : f ∈ splitFields n s) : ∀ c ∈ f, c ∈ s := by
  induction n, s using splitFields.induct with
  | case1 | case2 =>
    rw [mem_singleton.1 h]
    exact fun c hc => hc
  | case3 n s hdrop =>
    unfold splitFields at h
    rw [hdrop] at h
    rw [mem_singleton.1 h]
    exact fun c hc => hc
  | case4 n s x rest hdrop ih =>
    unfold splitFields at h
    rw [hdrop] at h
    rcases mem_cons.1 h with rfl | h
    · exact fun c hc => (List.takeWhile_prefix _).subset hc
    intro c hc
    apply (dropWhile_suffix (fun c => decide (c ≠ 58))).subset
    rw [hdrop]
    exact mem_cons_of_mem _ (ih h c hc)

/-- The name of a parsed line is what stands before its first colon. -/
theorem splitFields_cons {fields : List Str}
    (h : splitFields (n + 2) s = name :: fields) (hne : fields ≠ []) :
    name = s.takeWhile (· ≠ 58) := by
  unfold splitFields at h
  cases hdrop : s.dropWhile (fun c => decide (c ≠ 58)) with
  | nil =>
    rw [hdrop] at h
    simp only [cons.injEq] at h
    exact absurd h.2.symm hne
  | cons x rest =>
    rw [hdrop] at h
    simp only [cons.injEq] at h
    exact h.1.symm

/-! ### Entries -/

/-- An entry that its line gives back. -/
structure User.Clean (u : User) : Prop where
  name : Plain u.username
  comment : u.username.head? ≠ some 35
  nameLength : u.username.length ≤ 31
  hash : u.hash.length = 32
  home : (10 : UInt8) ∉ u.home ∧ (0 : UInt8) ∉ u.home
  homeLength : u.home.length ≤ 63

/-- The line of an entry without its line break. -/
def userText (u : User) : Str :=
  u.username ++ 58 :: (formatDec u.uid ++ 58 :: (formatDec u.gid ++ 58 :: (formatHex8 u.salt ++
    58 :: (bytesToHex u.hash ++ 58 :: u.home))))

theorem length_decDigits_le (n v : Nat) : (decDigits n v).length ≤ n := by
  induction n generalizing v with
  | zero => exact Nat.le_refl _
  | succ n ih =>
    unfold decDigits
    split
    · simp
    have := ih (v / 10)
    simp
    omega

theorem length_bytesToHex (bytes : List UInt8) : (bytesToHex bytes).length = 2 * bytes.length := by
  simp [bytesToHex, length_flatMap, Nat.mul_comm]

/-- The buffer of `build_user_line` holds the whole line. -/
theorem buildUserLine_eq (hu : u.Clean) (hhome : u.home ≠ []) :
    buildUserLine u = userText u ++ [10] := by
  have hline : u.username ++ [58] ++ formatDec u.uid ++ [58] ++ formatDec u.gid ++ [58] ++
      formatHex8 u.salt ++ [58] ++ bytesToHex u.hash ++ [58] ++ u.home ++ [10] =
      userText u ++ [10] := by
    simp [userText]
  have h1 : (formatDec u.uid).length ≤ 12 := length_decDigits_le _ _
  have h2 : (formatDec u.gid).length ≤ 12 := length_decDigits_le _ _
  have h3 : (formatHex8 u.salt).length = 8 := by simp [formatHex8]
  have h4 : (bytesToHex u.hash).length = 64 := by rw [length_bytesToHex, hu.hash]
  have h5 := hu.nameLength
  have h6 := hu.homeLength
  unfold buildUserLine
  rw [if_neg hhome, hline]
  apply take_of_length_le
  simp only [userText, length_append, length_cons, length_nil]
  omega

theorem not_mem_userText (hu : u.Clean) {c : UInt8}
    (hc : ∀ s : Str, Plain s → c ∉ s) (hne : c ≠ 58) (hhome : c ∉ u.home) : c ∉ userText u := by
  simp only [userText, mem_append, mem_cons, not_or]
  exact ⟨hc _ hu.name, hne, hc _ (plain_formatDec _), hne, hc _ (plain_formatDec _), hne,
    hc _ (plain_formatHex8 _), hne, hc _ (plain_bytesToHex _), hne, hhome⟩

/-- **A line gives its entry back.** -/
theorem parseUser_userText (hu : u.Clean) : parseUser (userText u) = some u := by
  have hfields : splitFields 6 (userText u) = [u.username, formatDec u.uid, formatDec u.gid,
      formatHex8 u.salt, bytesToHex u.hash, u.home] := by
    unfold userText
    rw [splitFields_append hu.name.1, splitFields_append (plain_formatDec _).1,
      splitFields_append (plain_formatDec _).1, splitFields_append (plain_formatHex8 _).1,
      splitFields_append (plain_bytesToHex _).1]
    rfl
  have hstart : ¬ (userText u = [] ∨ (userText u).head? = some 35) := by
    rintro (h | h)
    · simp [userText] at h
    unfold userText at h
    cases hname : u.username with
    | nil =>
      rw [hname] at h
      simp at h
    | cons c rest =>
      rw [hname] at h
      have hcomment := hu.comment
      rw [hname] at hcomment
      exact hcomment h
  have hhash := hexToBytes_bytesToHex u.hash
  rw [hu.hash] at hhash
  unfold parseUser
  rw [if_neg hstart, hfields]
  dsimp only
  rw [take_of_length_le hu.nameLength, take_of_length_le hu.homeLength, atoi_formatDec,
    atoi_formatDec, hexToInt_formatHex8, hhash]

theorem length_hexToBytes (n : Nat) (s : Str) : (hexToBytes n s).length = n := by
  induction n generalizing s with
  | zero => rfl
  | succ n ih =>
    rcases s with _ | ⟨c1, _ | ⟨c2, rest⟩⟩
    · exact length_replicate
    · exact length_replicate
    unfold hexToBytes
    split
    · rw [length_cons, ih]
    · exact length_replicate

/-- What is parsed from a line is well formed. -/
theorem clean_parseUser {line : Str} (h : parseUser line = some u)
    (hbreak : (10 : UInt8) ∉ line) (hzero : (0 : UInt8) ∉ line) : u.Clean := by
  unfold parseUser at h
  split at h
  · cases h
  rename_i hstart
  have hfield : ∀ (name : Str) (fields : List Str), splitFields 6 line = name :: fields →
      fields ≠ [] → Plain (name.take 31) ∧ (name.take 31).head? ≠ some 35 := by
    intro name fields hfields hne
    have hname := splitFields_cons hfields hne
    have hsub : ∀ c ∈ name.take 31, c ∈ line := by
      intro c hc
      apply (List.takeWhile_prefix (fun x => decide (x ≠ (58 : UInt8)))).subset
      rw [← hname]
      exact mem_of_mem_take hc
    refine ⟨⟨fun hc => ?_, fun hc => hbreak (hsub _ hc), fun hc => hzero (hsub _ hc)⟩, ?_⟩
    · have hmem := mem_of_mem_take hc
      rw [hname] at hmem
      have := mem_takeWhile_imp hmem
      simp at this
    intro hhead
    rw [head?_take, if_neg (by decide), hname, head?_takeWhile, Option.filter_eq_some_iff] at hhead
    exact hstart (.inr hhead.1)
  have hhome : ∀ (fields : List Str) (home : Str), splitFields 6 line = fields → home ∈ fields →
      (10 : UInt8) ∉ home.take 63 ∧ (0 : UInt8) ∉ home.take 63 := by
    intro fields home hfields hmem
    subst hfields
    have hsub := mem_splitFields hmem
    exact ⟨fun hc => hbreak (hsub _ (mem_of_mem_take hc)),
      fun hc => hzero (hsub _ (mem_of_mem_take hc))⟩
  split at h
  · rename_i name uid gid salt hash hfields
    cases h
    obtain ⟨hplain, hcomment⟩ := hfield _ _ hfields (by simp)
    exact ⟨hplain, hcomment, length_take_le _ _, length_hexToBytes _ _, ⟨by simp, by simp⟩, by simp⟩
  · rename_i name uid gid salt hash home hfields
    cases h
    obtain ⟨hplain, hcomment⟩ := hfield _ _ hfields (by simp)
    exact ⟨hplain, hcomment, length_take_le _ _, length_hexToBytes _ _,
      hhome _ home hfields (by simp), length_take_le _ _⟩
  · cases h

/-! ### Files -/

theorem cstr_eq (h : (0 : UInt8) ∉ s) : cstr s = s :=
  takeWhile_eq_self_iff.2 fun _ hc => decide_eq_true fun hc0 => h (hc0 ▸ hc)

theorem zero_not_mem_cstr (s : Str) : (0 : UInt8) ∉ cstr s := by
  intro h
  have := mem_takeWhile_imp h
  simp at this

/-- What the parser returns can be written again. -/
theorem clean_parsePasswd {content : Str} (h : u ∈ parsePasswd content) : u.Clean := by
  obtain ⟨line, hline, hparse⟩ := mem_filterMap.1 (mem_of_mem_take h)
  have hchars := Split.mem_splitOnP hline
  refine clean_parseUser hparse (fun hc => ?_) (fun hc => ?_)
  · have := (hchars _ hc).2
    simp at this
  · exact zero_not_mem_cstr content (hchars _ hc).1

theorem closed_append {text : Str} (hf : (0 : UInt8) ∉ f) (htext : (0 : UInt8) ∉ text) :
    Closed (f ++ (text ++ [10])) := by
  refine ⟨?_, .inr ?_⟩
  · simp only [mem_append, mem_singleton, not_or]
    exact ⟨hf, htext, by decide⟩
  · rw [← append_assoc, getLast?_concat]

/-- A line appended to a file with complete lines is parsed after the others. -/
theorem parseFile_append {α : Type} {parse : Str → Option α} {text : Str} {x : α}
    (hnil : parse [] = none) (hf : Closed f) (hzero : (0 : UInt8) ∉ text)
    (hbreak : (10 : UInt8) ∉ text) (hparse : parse text = some x)
    (hroom : (parseFile parse f).length < maxEntries) :
    parseFile parse (f ++ (text ++ [10])) = parseFile parse f ++ [x] := by
  have hlast : (text ++ [10]).splitOn 10 = [text, []] := by
    have hall : ∀ c ∈ text, (c == (10 : UInt8)) = false := by
      intro c hc
      rw [beq_eq_false_iff_ne]
      exact fun h => hbreak (h ▸ hc)
    exact splitOnP_append_cons_of_forall_mem hall 10 rfl []
  have hlines : ((f ++ (text ++ [10])).splitOn 10).filterMap parse =
      (f.splitOn 10).filterMap parse ++ [x] := by
    rcases hf.2 with rfl | hend
    · rw [nil_append, hlast]
      have hempty : ([] : Str).splitOn 10 = [[]] := splitOnP_nil
      rw [hempty]
      simp [hnil, hparse]
    obtain ⟨g, rfl⟩ := getLast?_eq_some_iff.1 hend
    have happend : ∀ rest : Str, (g ++ 10 :: rest).splitOn 10 = g.splitOn 10 ++ rest.splitOn 10 :=
      fun rest => splitOnP_append_cons g rest rfl
    have hempty : ([] : Str).splitOn 10 = [[]] := splitOnP_nil
    rw [append_assoc, singleton_append, happend, hlast, happend, hempty]
    simp [hnil, hparse]
  have hfirst : cstr f = f := cstr_eq hf.1
  have hwhole : cstr (f ++ (text ++ [10])) = f ++ (text ++ [10]) :=
    cstr_eq (closed_append hf.1 hzero).1
  unfold parseFile at hroom ⊢
  rw [hfirst] at hroom ⊢
  rw [hwhole, hlines]
  have hlength : ((f.splitOn 10).filterMap parse).length < maxEntries := by
    rw [length_take] at hroom
    omega
  rw [take_of_length_le (Nat.le_of_lt hlength), take_of_length_le]
  rw [length_append, length_singleton]
  omega

/-- The line of a user is added to a file. -/
theorem parsePasswd_append (hu : u.Clean) (hhome : u.home ≠ []) (hf : Closed f)
    (hroom : (parsePasswd f).length < maxEntries) :
    Closed (f ++ buildUserLine u) ∧ parsePasswd (f ++ buildUserLine u) = parsePasswd f ++ [u] := by
  have hzero : (0 : UInt8) ∉ userText u :=
    not_mem_userText hu (fun s hs => hs.2.2) (by decide) hu.home.2
  have hbreak : (10 : UInt8) ∉ userText u :=
    not_mem_userText hu (fun s hs => hs.2.1) (by decide) hu.home.1
  rw [buildUserLine_eq hu hhome]
  exact ⟨closed_append hf.1 hzero,
    parseFile_append rfl hf hzero hbreak (parseUser_userText hu) hroom⟩

/-- The file that `rewrite_passwd_file` writes. -/
theorem parsePasswd_flatMap {users : List User} (hclean : ∀ u ∈ users, u.Clean ∧ u.home ≠ [])
    (hf : Closed f) (hroom : (parsePasswd f).length + users.length ≤ maxEntries) :
    parsePasswd (f ++ users.flatMap buildUserLine) = parsePasswd f ++ users := by
  induction users generalizing f with
  | nil => simp
  | cons u users ih =>
    obtain ⟨hu, hhome⟩ := hclean u mem_cons_self
    rw [length_cons] at hroom
    obtain ⟨hclosed, hfirst⟩ := parsePasswd_append hu hhome hf (by omega)
    rw [flatMap_cons, ← append_assoc, ih (fun v hv => hclean v (mem_cons_of_mem _ hv)) hclosed (by
      rw [hfirst, length_append, length_singleton]
      omega), hfirst, append_assoc]
    rfl

/-! ### The calls -/

/-- What every call keeps. -/
structure Db.Sound (db : Db) : Prop where
  agrees : db.Agrees
  clean : ∀ u ∈ db.users, u.Clean

theorem clean_newUser {home : Str} (uid gid salt : UInt32) (hash : Vector UInt8 32)
    (hname : PlainName ((cstr name).take 31)) (hhome : (10 : UInt8) ∉ (cstr home).take 63) :
    (Db.newUser name uid gid home salt hash).Clean ∧
      (Db.newUser name uid gid home salt hash).home ≠ [] := by
  obtain ⟨hcolon, hbreak, hcomment⟩ := hname
  have hzero : ∀ {s : Str} {n : Nat}, (0 : UInt8) ∉ (cstr s).take n :=
    fun h => zero_not_mem_cstr _ (mem_of_mem_take h)
  refine ⟨⟨⟨hcolon, hbreak, hzero⟩, hcomment, length_take_le _ _, hash.length_toList, ?_,
    length_take_le _ _⟩, ?_⟩
  · unfold Db.newUser
    dsimp only
    split
    · exact ⟨by decide, by decide⟩
    · exact ⟨hhome, hzero⟩
  · unfold Db.newUser
    dsimp only
    split
    · decide
    rename_i hne
    rw [ne_eq, take_eq_nil_iff]
    rintro (h | h)
    · cases h
    · exact hne h

theorem nodup_map_append {α β : Type} {f : α → β} {l : List α} {x : α} (hl : (l.map f).Nodup)
    (hx : f x ∉ l.map f) : ((l ++ [x]).map f).Nodup := by
  rw [map_append, map_singleton, ← concat_eq_append]
  exact hl.concat hx

/-- `users_add` keeps database and file in step. -/
theorem sound_usersAdd {uid : UInt32} {home : Str} {salt : UInt32}
    {hash : Vector UInt8 32} (hdb : db.Sound)
    (hfits : db.Fits (.usersAdd name uid gid home salt hash short))
    (h : db.usersAdd name uid gid home salt hash short = some db') : db'.Sound := by
  obtain ⟨rfl, hclosed, hname, hhome, hfresh, huid⟩ := hfits
  unfold Db.usersAdd at h
  split at h
  · cases h
  rename_i hchecks
  simp only [not_or, Nat.not_le] at hchecks
  cases h
  obtain ⟨hclean, hnonempty⟩ := clean_newUser uid gid salt hash hname hhome
  generalize hu : Db.newUser name uid gid home salt hash = u at hclean hnonempty
  have husername : u.username = (cstr name).take 31 := by rw [← hu]; rfl
  have huid' : u.uid = uid := by rw [← hu]; rfl
  refine ⟨⟨?_, hdb.agrees.groups, ?_, ?_, hdb.agrees.groupnames⟩, ?_⟩
  · have hroom : (parsePasswd db.passwd).length < maxEntries := by
      rw [hdb.agrees.users]
      exact hchecks.2.2
    show parsePasswd (db.passwd ++ buildUserLine u) = db.users ++ [u]
    rw [(parsePasswd_append hclean hnonempty hclosed hroom).2, hdb.agrees.users]
  · exact nodup_map_append hdb.agrees.usernames (husername ▸ hfresh)
  · exact nodup_map_append hdb.agrees.uids (huid' ▸ huid)
  intro v hv
  rcases mem_append.1 hv with hv | hv
  · exact hdb.clean v hv
  · rw [mem_singleton.1 hv]
    exact hclean

/-- A change of a password touches salt and digest of one entry. -/
theorem setHash_spec (name : Str) (salt : UInt32) (hash : Vector UInt8 32) (users : List User) :
    (Db.setHash name salt hash users).map User.username = users.map User.username ∧
      (Db.setHash name salt hash users).map User.uid = users.map User.uid ∧
      ∀ v ∈ Db.setHash name salt hash users, ∃ u ∈ users, v.username = u.username ∧
        v.home = u.home ∧ (v.hash = u.hash ∨ v.hash = hash.toList) := by
  induction users with
  | nil => exact ⟨rfl, rfl, fun v hv => by cases hv⟩
  | cons u users ih =>
    obtain ⟨hnames, huids, hentries⟩ := ih
    unfold Db.setHash
    split
    · refine ⟨rfl, rfl, fun v hv => ?_⟩
      rcases mem_cons.1 hv with rfl | hv
      · exact ⟨u, mem_cons_self, rfl, rfl, .inr rfl⟩
      · exact ⟨v, mem_cons_of_mem _ hv, rfl, rfl, .inl rfl⟩
    refine ⟨congrArg (u.username :: ·) hnames, congrArg (u.uid :: ·) huids, fun v hv => ?_⟩
    rcases mem_cons.1 hv with rfl | hv
    · exact ⟨v, mem_cons_self, rfl, rfl, .inl rfl⟩
    · obtain ⟨w, hw, hrest⟩ := hentries v hv
      exact ⟨w, mem_cons_of_mem _ hw, hrest⟩

theorem sound_usersSetPassword {salt : UInt32} {hash : Vector UInt8 32} (hdb : db.Sound)
    (hfits : db.Fits (.usersSetPassword name salt hash short))
    (h : db.usersSetPassword name salt hash short = some db') : db'.Sound := by
  obtain ⟨rfl, hhomes⟩ := hfits
  unfold Db.usersSetPassword at h
  split at h
  · cases h
    obtain ⟨hnames, huids, hentries⟩ := setHash_spec (cstr name) salt hash db.users
    generalize hset : Db.setHash (cstr name) salt hash db.users = users at hnames huids hentries
    have hclean : ∀ v ∈ users, v.Clean ∧ v.home ≠ [] := by
      intro v hv
      obtain ⟨u, hu, hname, hhome, hhash⟩ := hentries v hv
      have hu' := hdb.clean u hu
      refine ⟨⟨hname ▸ hu'.name, hname ▸ hu'.comment, hname ▸ hu'.nameLength, ?_, hhome ▸ hu'.home,
        hhome ▸ hu'.homeLength⟩, hhome ▸ hhomes u hu⟩
      rcases hhash with hhash | hhash
      · rw [hhash, hu'.hash]
      · rw [hhash]
        exact hash.length_toList
    have hlength : users.length ≤ maxEntries := by
      have hmap := congrArg List.length hnames
      rw [length_map, length_map] at hmap
      rw [hmap, ← hdb.agrees.users]
      exact length_take_le _ _
    have hwrite : parsePasswd ([] ++ users.flatMap buildUserLine) = parsePasswd [] ++ users :=
      parsePasswd_flatMap hclean ⟨by simp, .inl rfl⟩ (by
        have hempty : parsePasswd [] = [] := rfl
        rw [hempty, length_nil]
        omega)
    refine ⟨⟨hwrite, hdb.agrees.groups, ?_, ?_, hdb.agrees.groupnames⟩, fun v hv => (hclean v hv).1⟩
    · show (users.map User.username).Nodup
      rw [hnames]
      exact hdb.agrees.usernames
    rw [huids]
    exact hdb.agrees.uids
  · cases h

theorem parseGroupLine_eq (hname : PlainName name) (hne : name ≠ []) :
    parseGroupLine (name ++ 58 :: formatDec gid) = some ⟨name.take 31, gid⟩ := by
  obtain ⟨hcolon, -, hcomment⟩ := hname
  have hstart : ¬ (name ++ 58 :: formatDec gid = [] ∨
      (name ++ 58 :: formatDec gid).head? = some 35) := by
    cases name with
    | nil => exact absurd rfl hne
    | cons c rest =>
      rintro (h | h)
      · cases h
      · exact hcomment h
  unfold parseGroupLine
  rw [if_neg hstart, splitFields_append hcolon]
  dsimp only [splitFields]
  rw [atoi_formatDec]

theorem sound_groupsAdd (hdb : db.Sound) (hfits : db.Fits (.groupsAdd name gid short))
    (h : db.groupsAdd name gid short = some db') : db'.Sound := by
  obtain ⟨rfl, hclosed, hname, hlength, hfresh⟩ := hfits
  unfold Db.groupsAdd at h
  split at h
  · cases h
  rename_i hchecks
  simp only [not_or, Nat.not_le] at hchecks
  cases h
  have hline : buildGroupLine (cstr name) gid = (cstr name ++ 58 :: formatDec gid) ++ [10] := by
    unfold buildGroupLine
    rw [take_of_length_le]
    · simp
    · simp only [length_append, length_cons, length_nil]
      omega
  have hdigits := plain_formatDec gid
  have hzero : (0 : UInt8) ∉ cstr name ++ 58 :: formatDec gid := by
    simp only [mem_append, mem_cons, not_or]
    exact ⟨zero_not_mem_cstr name, by decide, hdigits.2.2⟩
  have hbreak : (10 : UInt8) ∉ cstr name ++ 58 :: formatDec gid := by
    simp only [mem_append, mem_cons, not_or]
    exact ⟨hname.2.1, by decide, hdigits.2.1⟩
  have hroom : (parseGroup db.group).length < maxEntries := by
    rw [hdb.agrees.groups]
    exact hchecks.2.2
  have happend : parseGroup (db.group ++ ((cstr name ++ 58 :: formatDec gid) ++ [10])) =
      parseGroup db.group ++ [⟨(cstr name).take 31, gid⟩] :=
    parseFile_append rfl hclosed hzero hbreak (parseGroupLine_eq hname hchecks.1) hroom
  refine ⟨⟨hdb.agrees.users, ?_, hdb.agrees.usernames, hdb.agrees.uids, ?_⟩, hdb.clean⟩
  · show parseGroup (db.group ++ buildGroupLine (cstr name) gid) = db.groups ++ [_]
    rw [hline, happend, hdb.agrees.groups]
  · exact nodup_map_append hdb.agrees.groupnames hfresh

/-- So does every call that fits. -/
theorem sound_step {c : Call} (hdb : db.Sound)
    (hfits : (db.call c).isSome = true → db.Fits c) : (db.step c).Sound := by
  unfold Db.step
  cases hcall : db.call c with
  | none => exact hdb
  | some db' =>
    have hfits := hfits (by rw [hcall]; rfl)
    cases c with
    | usersAdd name uid gid home salt hash short => exact sound_usersAdd hdb hfits hcall
    | usersSetPassword name salt hash short => exact sound_usersSetPassword hdb hfits hcall
    | groupsAdd name gid short => exact sound_groupsAdd hdb hfits hcall

/-- The condition on a call, when it succeeds. -/
def Db.Allowed (db : Db) (c : Call) : Prop := (db.call c).isSome = true → db.Fits c

/-- **The files hold the tables.**  From any two files whose entries have unique names and uids, in
every run whose successful calls meet the condition, parsing the files as they are written gives
the tables, and names and uids stay unique. -/
theorem files_agree (passwd group : Str) (calls : List Call)
    (hnames : ((parsePasswd passwd).map User.username).Nodup)
    (huids : ((parsePasswd passwd).map User.uid).Nodup)
    (hgroups : ((parseGroup group).map Group.groupname).Nodup)
    (hcalls : Run.Meets Db.step Db.Allowed (usersInit passwd group) calls) :
    (Run.run Db.step (usersInit passwd group) calls).Agrees := by
  have hstart : (usersInit passwd group).Sound :=
    ⟨⟨rfl, rfl, hnames, huids, hgroups⟩, fun u hu => clean_parsePasswd hu⟩
  exact (hcalls.invariant (fun _ _ hdb hfits => sound_step hdb hfits) hstart).agrees

/-- A user and a group are added to empty files. -/
def plainCalls : List Call :=
  [.groupsAdd [119] 1000 none, .usersAdd [98, 111, 98] 1000 1000 [47] 0x3b92dc1c emptyDigest none]

theorem files_agree_plain :
    (Run.run Db.step (usersInit [] []) plainCalls).users.length = 1 ∧
      (Run.run Db.step (usersInit [] []) plainCalls).Agrees := by
  refine ⟨rfl, files_agree [] [] plainCalls nodup_nil nodup_nil nodup_nil
    ⟨fun _ => ?_, fun _ => ?_, trivial⟩⟩
  · refine ⟨rfl, ⟨by simp [usersInit], .inl rfl⟩, ⟨?_, ?_, ?_⟩, ?_, ?_⟩ <;> decide
  · refine ⟨rfl, ⟨?_, .inl rfl⟩, ⟨?_, ?_, ?_⟩, ?_, ?_, ?_⟩ <;> decide

end Users
