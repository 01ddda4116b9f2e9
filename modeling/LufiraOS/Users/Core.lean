import LufiraOS.Lib.Run
import Mathlib

/-!
# The user database

`/etc/passwd` and `/etc/group` are text files with a line per entry and fields separated by
colons.  They are parsed once into tables of at most 32 entries; from then on each call changes
the table and the file beside each other.  A new entry is appended to its file, and a change of a
password writes the whole of `/etc/passwd` from the table.

Strings are lists of bytes.  A C string ends at its first zero byte.
-/

namespace Users

abbrev Str := List UInt8

/-- The string that a pointer to these bytes is. -/
def cstr (s : Str) : Str := s.takeWhile (· ≠ 0)

/-! ### Numbers as text -/

/-- `format_dec`; its buffer has room for 12 digits. -/
def decDigits : Nat → Nat → Str
  | 0, _ => []
  | n + 1, v =>
    if v < 10 then [UInt8.ofNat (48 + v)] else decDigits n (v / 10) ++ [UInt8.ofNat (48 + v % 10)]

def formatDec (v : UInt32) : Str := decDigits 12 v.toNat

def isDigit (c : UInt8) : Bool := 48 ≤ c.toNat && c.toNat ≤ 57

/-- The loop of `atoi`, on 32 bits. -/
def decValue (s : Str) : Nat :=
  (s.takeWhile isDigit).foldl (fun r c => (r * 10 + (c.toNat - 48)) % 2 ^ 32) 0

/-- `(uint32_t)atoi(s)`. -/
def atoi (s : Str) : UInt32 :=
  if s.head? = some 45 then UInt32.ofNat (2 ^ 32 - decValue s.tail) else UInt32.ofNat (decValue s)

/-- A digit of `"0123456789abcdef"`. -/
def hexDigit (d : Nat) : UInt8 := if d < 10 then UInt8.ofNat (48 + d) else UInt8.ofNat (87 + d)

/-- The value of a hexadecimal digit of either case. -/
def hexVal (c : UInt8) : Option Nat :=
  if 48 ≤ c.toNat ∧ c.toNat ≤ 57 then some (c.toNat - 48)
  else if 97 ≤ c.toNat ∧ c.toNat ≤ 102 then some (c.toNat - 87)
  else if 65 ≤ c.toNat ∧ c.toNat ≤ 70 then some (c.toNat - 55)
  else none

/-- `format_hex8`. -/
def formatHex8 (v : UInt32) : Str :=
  (List.range 8).map fun i => hexDigit (v.toNat / 16 ^ (7 - i) % 16)

/-- `(uint32_t)hex_to_int(s)`. -/
def hexToInt (s : Str) : UInt32 :=
  UInt32.ofNat ((s.takeWhile fun c => (hexVal c).isSome).foldl
    (fun r c => (r * 16 + (hexVal c).getD 0) % 2 ^ 32) 0)

/-- `bytes_to_hex`. -/
def bytesToHex (bytes : List UInt8) : Str :=
  bytes.flatMap fun b => [hexDigit (b.toNat / 16), hexDigit (b.toNat % 16)]

/-- `hex_to_bytes`: what is no pair of digits makes the rest zero. -/
def hexToBytes : Nat → Str → List UInt8
  | 0, _ => []
  | n + 1, c1 :: c2 :: rest =>
    match hexVal c1, hexVal c2 with
    | some hi, some lo => UInt8.ofNat (hi * 16 + lo) :: hexToBytes n rest
    | _, _ => List.replicate (n + 1) 0
  | n + 1, _ => List.replicate (n + 1) 0

/-! ### The tables -/

/-- `user_entry_t`. -/
structure User where
  username : Str
  uid : UInt32
  gid : UInt32
  salt : UInt32
  hash : List UInt8
  home : Str
  deriving DecidableEq

/-- `group_entry_t`. -/
structure Group where
  groupname : Str
  gid : UInt32
  deriving DecidableEq

/-- `MAX_USERS` and `MAX_GROUPS`. -/
def maxEntries : Nat := 32

/-- `split_fields`: the last of the `n` fields is the rest of the line. -/
def splitFields : Nat → Str → List Str
  | 0, s => [s]
  | 1, s => [s]
  | n + 2, s =>
    match s.dropWhile (· ≠ 58) with
    | [] => [s]
    | _ :: rest => s.takeWhile (· ≠ 58) :: splitFields (n + 1) rest

/-- One line of `parse_passwd`. -/
def parseUser (line : Str) : Option User :=
  if line = [] ∨ line.head? = some 35 then none
  else
    match splitFields 6 line with
    | [name, uid, gid, salt, hash] =>
      some ⟨name.take 31, atoi uid, atoi gid, hexToInt salt, hexToBytes 32 hash, [47]⟩
    | [name, uid, gid, salt, hash, home] =>
      some ⟨name.take 31, atoi uid, atoi gid, hexToInt salt, hexToBytes 32 hash, home.take 63⟩
    | _ => none

/-- One line of `parse_group`. -/
def parseGroupLine (line : Str) : Option Group :=
  if line = [] ∨ line.head? = some 35 then none
  else
    match splitFields 2 line with
    | [name, gid] => some ⟨name.take 31, atoi gid⟩
    | _ => none

/-- The loops of `parse_passwd` and `parse_group` over the lines of a file. -/
def parseFile {α : Type} (parse : Str → Option α) (content : Str) : List α :=
  (((cstr content).splitOn 10).filterMap parse).take maxEntries

def parsePasswd : Str → List User := parseFile parseUser

def parseGroup : Str → List Group := parseFile parseGroupLine

/-- `build_user_line`, with its buffer of 256 bytes. -/
def buildUserLine (u : User) : Str :=
  (u.username ++ [58] ++ formatDec u.uid ++ [58] ++ formatDec u.gid ++ [58] ++ formatHex8 u.salt ++
    [58] ++ bytesToHex u.hash ++ [58] ++ (if u.home = [] then [47] else u.home) ++ [10]).take 255

/-- The line that `groups_add` writes, with its buffer of 80 bytes. -/
def buildGroupLine (name : Str) (gid : UInt32) : Str :=
  (name ++ [58] ++ formatDec gid ++ [10]).take 79

/-- The tables and the files. -/
structure Db where
  users : List User
  groups : List Group
  passwd : Str
  group : Str

/-- `users_init`. -/
def usersInit (passwd group : Str) : Db :=
  ⟨parsePasswd passwd, parseGroup group, passwd, group⟩

/-- The calls, with the salt and the digest that `generate_salt` and `salted_password_hash` make for
them.  `short` is what is in the file after a write that stored only a part of its bytes, which the
code takes for a success. -/
inductive Call where
  | usersAdd (name : Str) (uid gid : UInt32) (home : Str) (salt : UInt32) (hash : Vector UInt8 32)
      (short : Option Str)
  | usersSetPassword (name : Str) (salt : UInt32) (hash : Vector UInt8 32) (short : Option Str)
  | groupsAdd (name : Str) (gid : UInt32) (short : Option Str)

namespace Db

/-- The entry that `users_add` makes. -/
def newUser (name : Str) (uid gid : UInt32) (home : Str) (salt : UInt32)
    (hash : Vector UInt8 32) : User :=
  ⟨(cstr name).take 31, uid, gid, salt, hash.toList,
    (if cstr home = [] then [47] else cstr home).take 63⟩

/-- `users_add`. -/
def usersAdd (db : Db) (name : Str) (uid gid : UInt32) (home : Str) (salt : UInt32)
    (hash : Vector UInt8 32) (short : Option Str) : Option Db :=
  if cstr name = [] ∨ cstr name ∈ db.users.map User.username ∨
    maxEntries ≤ db.users.length then none
  else
    let u := newUser name uid gid home salt hash
    some { db with
      users := db.users ++ [u]
      passwd := short.getD (db.passwd ++ buildUserLine u) }

/-- The table after the entry with the name got a new password. -/
def setHash (name : Str) (salt : UInt32) (hash : Vector UInt8 32) : List User → List User
  | [] => []
  | u :: us =>
    if u.username = name then { u with salt := salt, hash := hash.toList } :: us
    else u :: setHash name salt hash us

/-- `users_set_password` with `rewrite_passwd_file`. -/
def usersSetPassword (db : Db) (name : Str) (salt : UInt32) (hash : Vector UInt8 32)
    (short : Option Str) : Option Db :=
  if cstr name ∈ db.users.map User.username then
    let users := setHash (cstr name) salt hash db.users
    some { db with users := users, passwd := short.getD (users.flatMap buildUserLine) }
  else none

/-- `groups_add`. -/
def groupsAdd (db : Db) (name : Str) (gid : UInt32) (short : Option Str) : Option Db :=
  if cstr name = [] ∨ cstr name ∈ db.groups.map Group.groupname ∨ maxEntries ≤ db.groups.length then
    none
  else
    some { db with
      groups := db.groups ++ [⟨(cstr name).take 31, gid⟩]
      group := short.getD (db.group ++ buildGroupLine (cstr name) gid) }

/-- A call; `none` when it fails. -/
def call (db : Db) : Call → Option Db
  | .usersAdd name uid gid home salt hash short => db.usersAdd name uid gid home salt hash short
  | .usersSetPassword name salt hash short => db.usersSetPassword name salt hash short
  | .groupsAdd name gid short => db.groupsAdd name gid short

/-- A failed call changes nothing. -/
def step (db : Db) (c : Call) : Db := (db.call c).getD db

/-- Parsing the files gives the tables, and names and uids are unique. -/
structure Agrees (db : Db) : Prop where
  users : parsePasswd db.passwd = db.users
  groups : parseGroup db.group = db.groups
  usernames : (db.users.map User.username).Nodup
  uids : (db.users.map User.uid).Nodup
  groupnames : (db.groups.map Group.groupname).Nodup

end Db

/-- A file to which a line can be appended: no zero byte, and the last line is complete. -/
def Closed (f : Str) : Prop := (0 : UInt8) ∉ f ∧ (f = [] ∨ f.getLast? = some 10)

/-- A name that stays one field of its own line. -/
def PlainName (name : Str) : Prop :=
  (58 : UInt8) ∉ name ∧ (10 : UInt8) ∉ name ∧ name.head? ≠ some 35

/-- **The condition on a call** that succeeds: the file can be appended to and takes the whole line;
names have no colon and no line break and do not start as a comment, a home has no line break; the
name, as it is cut, and the uid are new; and no home is empty when the file is written anew. -/
def Db.Fits (db : Db) : Call → Prop
  | .usersAdd name uid _ home _ _ short =>
    short = none ∧ Closed db.passwd ∧ PlainName ((cstr name).take 31) ∧
      (10 : UInt8) ∉ (cstr home).take 63 ∧ (cstr name).take 31 ∉ db.users.map User.username ∧
      uid ∉ db.users.map User.uid
  | .usersSetPassword _ _ _ short => short = none ∧ ∀ u ∈ db.users, u.home ≠ []
  | .groupsAdd name gid short =>
    short = none ∧ Closed db.group ∧ PlainName (cstr name) ∧
      (cstr name).length + (formatDec gid).length + 2 ≤ 79 ∧
      (cstr name).take 31 ∉ db.groups.map Group.groupname

/-- The digest of the empty password under the salt `3b92dc1c`. -/
def emptyDigest : Vector UInt8 32 :=
  #v[86, 72, 48, 49, 112, 209, 213, 153, 234, 189, 22, 142, 143, 124, 228, 41, 197, 192, 126, 138,
    27, 152, 57, 115, 94, 235, 136, 75, 100, 16, 108, 165]

/-- A user with the name `a:b` is added to an empty file. -/
def colonName : Call := .usersAdd [97, 58, 98] 1000 1000 [47] 0x3b92dc1c emptyDigest none

/-- The file holds a user with the name `a`. -/
theorem colonName_not_agrees : ¬ ((usersInit [] []).step colonName).Agrees := by
  intro h
  have husers := h.users
  revert husers
  decide

end Users
