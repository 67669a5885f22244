import Mathlib.Algebra.Ring.Nat
import Vcache.Strings

/-!
# Trimming the bucket

`S3Storage::Trim` lists the bucket page by page, deletes what is older than the
ttl, oldest first, and then what is over the size budget. The listing asks for the
configured prefix as it is; `ObjectKey` puts a slash behind it. The server is a
parameter: what it answers to a query, and whether a delete succeeds.
-/

namespace Vcache

open List

variable {xml : Str} {pos : Nat} {s : TrimState} {o : S3Object} {objects : List S3Object}

structure S3Object where
  key : Str
  size : Nat := 0
  lastModified : Int := 0
deriving DecidableEq, Repr

structure S3CacheConfig where
  keyPrefix : Str := []
  ttlDays : Int := 30
  maxSize : Nat := 0

/-- The prefix as `ObjectKey` writes it in front of a key. -/
def objectPrefix (keyPrefix : Str) : Str :=
  if keyPrefix ≠ [] ∧ keyPrefix.getLast? ≠ some '/' then keyPrefix ++ ['/'] else keyPrefix

def objectKey (config : S3CacheConfig) (key : Str) : Str :=
  objectPrefix config.keyPrefix ++ key.take 2 ++ "/".toList ++ key.drop 2

/-! ## Reading a listing -/

def elementText (xml tag : Str) (pos : Nat) : Option (Str × Nat) := do
  let opening := "<".toList ++ tag ++ ">".toList
  let closing := "</".toList ++ tag ++ ">".toList
  let start ← findFrom xml opening pos
  let first := start + opening.length
  let last ← findFrom xml closing first
  some ((xml.drop first).take (last - first), last + closing.length)

def digitValue (c : Char) : Nat := c.toNat - '0'.toNat

/-- `%Nd` of `sscanf`: blanks, a sign, and at most `width` characters with it. -/
def scanInt (width : Nat) (text : Str) : Option (Int × Str) :=
  let text := text.dropWhile isSpace
  let (negative, digits, width) := match text with
    | '-' :: rest => (true, rest, width - 1)
    | '+' :: rest => (false, rest, width - 1)
    | _ => (false, text, width)
  let number := (digits.take width).takeWhile isDigit
  if number = [] then none
  else
    let value : Int := number.foldl (fun n c => 10 * n + digitValue c) 0
    some (if negative then -value else value, digits.drop number.length)

def scanChar (c : Char) : Str → Option Str
  | d :: rest => if d = c then some rest else none
  | [] => none

/-- The days from 1970-01-01 to the first of a month. -/
def daysToMonth (year month : Int) : Int :=
  let y := if month ≤ 2 then year - 1 else year
  let m := if month ≤ 2 then month + 9 else month - 3
  365 * y + y / 4 - y / 100 + y / 400 + (153 * m + 2) / 5 - 719468

/-- `timegm`, which lets days, hours, minutes and seconds run over. -/
def fromUtcParts (year month day hour minute second : Int) : Int :=
  (((daysToMonth year month + day - 1) * 24 + hour) * 60 + minute) * 60 + second

def parseIso8601 (value : Str) : Option Int := do
  let (year, rest) ← scanInt 4 value
  let (month, rest) ← (scanChar '-' rest).bind (scanInt 2)
  let (day, rest) ← (scanChar '-' rest).bind (scanInt 2)
  let (hour, rest) ← (scanChar 'T' rest).bind (scanInt 2)
  let (minute, rest) ← (scanChar ':' rest).bind (scanInt 2)
  let (second, _) ← (scanChar ':' rest).bind (scanInt 2)
  if month < 1 ∨ 12 < month then none
  else some (fromUtcParts year month day hour minute second)

/-- `strtoull` in base 10: the largest value on overflow, and a minus sign negates. -/
def parseSize (text : Str) : Nat :=
  let text := text.dropWhile isSpace
  let (negative, digits) := match text with
    | '-' :: rest => (true, rest)
    | '+' :: rest => (false, rest)
    | _ => (false, text)
  let value := (digits.takeWhile isDigit).foldl (fun n c => 10 * n + digitValue c) 0
  if 2 ^ 64 ≤ value then 2 ^ 64 - 1
  else if negative then (2 ^ 64 - value) % 2 ^ 64 else value

def parseEntry (xml : Str) (contents : Nat) : Option S3Object :=
  (elementText xml "Key".toList contents).map (fun (key, cursor) =>
    { key
      lastModified := ((elementText xml "LastModified".toList cursor).bind
        (fun (modified, _) => parseIso8601 modified)).getD 0
      size := ((elementText xml "Size".toList cursor).map
        (fun (size, _) => parseSize size)).getD 0 })

def parseContents : Nat → Str → Nat → List S3Object
  | 0, _, _ => []
  | turns + 1, xml, pos =>
    match findFrom xml "<Contents>".toList pos with
    | none => []
    | some contents =>
      match parseEntry xml contents with
      | none => []
      | some entry =>
        entry :: match findFrom xml "</Contents>".toList contents with
          | none => []
          | some close => parseContents turns xml (close + 1)

theorem findFrom_ge {needle : Str} {i : Nat} (h : findFrom xml needle pos = some i) :
    pos ≤ i := by
  obtain ⟨offset, -, rfl⟩ := Option.map_eq_some_iff.mp h
  exact Nat.le_add_left _ _

/-- Every turn moves forward, so one turn a character is enough. -/
theorem parseContents_turns {turns : Nat} (h : xml.length < turns + pos) :
    parseContents (turns + 1) xml pos = parseContents turns xml pos := by
  induction turns generalizing pos with
  | zero =>
    have hend : findFrom xml "<Contents>".toList pos = none := by
      rw [findFrom, drop_of_length_le (by omega)]
      rfl
    simp only [parseContents, hend]
  | succ turns ih =>
    rw [parseContents, parseContents]
    split
    · rfl
    · rename_i contents hcontents
      split
      · rfl
      · congr 1
        split
        · rfl
        · rename_i close hclose
          have hstart := findFrom_ge hcontents
          have hstop := findFrom_ge hclose
          exact ih (by omega)

/-- The entries of a page and the token for the next one, empty when there is none. -/
def parseListObjectsV2 (xml : Str) : Option (List S3Object × Str) :=
  if contains "<ListBucketResult".toList xml then
    let truncated := (elementText xml "IsTruncated".toList 0).map Prod.fst
    let token := if truncated = some "true".toList then
        ((elementText xml "NextContinuationToken".toList 0).map Prod.fst).getD []
      else []
    some (parseContents (xml.length + 1) xml 0, token)
  else none

/-! ## Listing -/

def hexDigit (n : Nat) : Char := "0123456789ABCDEF".toList.getD n '0'

def isUnreserved (c : Char) : Bool :=
  ('A' ≤ c && c ≤ 'Z') || ('a' ≤ c && c ≤ 'z') || isDigit c || c ∈ ['-', '_', '.', '~']

def uriEncode (keepSlash : Bool) (input : Str) : Str :=
  input.flatMap (fun c =>
    if isUnreserved c || (keepSlash && c == '/') then [c]
    else ['%', hexDigit (c.toNat / 16), hexDigit (c.toNat % 16)])

/-- What a bucket's endpoint does with requests: the body of a listing, or nothing when the
request fails, and whether the `n`th delete succeeds. -/
structure S3Server where
  respond : Str → Option Str
  delete : Nat → Str → Bool

def listQuery (keyPrefix token : Str) : Str :=
  (if token = [] then [] else "continuation-token=".toList ++ uriEncode false token ++
    "&".toList) ++ "list-type=2".toList ++
    (if keyPrefix = [] then [] else "&prefix=".toList ++ uriEncode false keyPrefix)

def kMaxPages : Nat := 10000

/-- The objects of at most so many pages from a token on, and whether that was all. -/
def listPages (server : S3Server) (keyPrefix : Str) : Nat → Str → List S3Object × Bool
  | 0, _ => ([], false)
  | pages + 1, token =>
    match (server.respond (listQuery keyPrefix token)).bind parseListObjectsV2 with
    | none => ([], false)
    | some (objects, next) =>
      if next = [] then (objects, true)
      else
        let rest := listPages server keyPrefix pages next
        (objects ++ rest.1, rest.2)

def listAll (server : S3Server) (keyPrefix : Str) : List S3Object × Bool :=
  listPages server keyPrefix kMaxPages []

/-! ## Trimming -/

structure TrimResult where
  ran : Bool := false
  complete : Bool := false
  listed : Nat := 0
  expired : Nat := 0
  evicted : Nat := 0
  bytesBefore : Nat := 0
  bytesDeleted : Nat := 0
  /-- The keys given to `DeleteObject`, in order. -/
  requested : List Str := []
deriving DecidableEq

/-- What the two loops of `Trim` keep. -/
structure TrimState where
  result : TrimResult
  allDeletesOk : Bool := true
  remaining : Nat
  survivors : List S3Object := []

namespace TrimState

/-- `DeleteObject`, and the byte counts when it succeeds. -/
def request (s : TrimState) (o : S3Object) (deleted : Bool) : TrimState :=
  let result := { s.result with requested := s.result.requested ++ [o.key] }
  if deleted then
    { s with
      result := { result with bytesDeleted := (result.bytesDeleted + o.size) % 2 ^ 64 }
      remaining := (s.remaining + 2 ^ 64 - o.size) % 2 ^ 64 }
  else { s with result, allDeletesOk := false }

def expire (server : S3Server) (isExpired : S3Object → Bool) (s : TrimState) (o : S3Object) :
    TrimState :=
  if isExpired o then
    let deleted := server.delete s.result.requested.length o.key
    let s := s.request o deleted
    if deleted then { s with result := { s.result with expired := s.result.expired + 1 } }
    else { s with survivors := s.survivors ++ [o] }
  else { s with survivors := s.survivors ++ [o] }

def evictOne (server : S3Server) (s : TrimState) (o : S3Object) : TrimState :=
  let deleted := server.delete s.result.requested.length o.key
  let s := s.request o deleted
  if deleted then { s with result := { s.result with evicted := s.result.evicted + 1 } } else s

def evict (server : S3Server) (target : Nat) : TrimState → List S3Object → TrimState
  | s, [] => s
  | s, o :: os =>
    if s.remaining ≤ target then s else evict server target (evictOne server s o) os

end TrimState

/-- What `Trim` runs with: the clock, the order `std::sort` leaves the objects in, and
`max_size * 0.8` in double arithmetic. -/
structure TrimRun where
  available : Bool := true
  readOnly : Bool := false
  now : Int
  oldestFirst : List S3Object → List S3Object
  target : Nat → Nat

def isExpired (config : S3CacheConfig) (now : Int) (o : S3Object) : Bool :=
  0 < config.ttlDays && 0 < o.lastModified && config.ttlDays * 24 * 60 * 60 < now - o.lastModified

/-- What is left once the expired objects are gone. -/
def trimExpired (server : S3Server) (config : S3CacheConfig) (run : TrimRun)
    (objects : List S3Object) : TrimState :=
  let bytesBefore := (objects.map S3Object.size).sum % 2 ^ 64
  (run.oldestFirst objects).foldl (TrimState.expire server (isExpired config run.now))
    { result := { ran := true, listed := objects.length, bytesBefore }, remaining := bytesBefore }

def trim (server : S3Server) (config : S3CacheConfig) (run : TrimRun) : TrimResult :=
  if !run.available || run.readOnly then {}
  else if config.ttlDays ≤ 0 ∧ config.maxSize = 0 then {}
  else
    let (objects, listedAll) := listAll server config.keyPrefix
    let s := trimExpired server config run objects
    let s := if 0 < config.maxSize ∧ config.maxSize < s.remaining then
        TrimState.evict server (run.target config.maxSize) s s.survivors
      else s
    { s.result with complete := listedAll && s.allDeletesOk }

/-! ## What is deleted -/

namespace TrimState

variable (server : S3Server) (isExpired : S3Object → Bool)

theorem request_requested (s : TrimState) (o : S3Object) (deleted : Bool) :
    (s.request o deleted).result.requested = s.result.requested ++ [o.key] := by
  cases deleted <;> rfl

theorem request_survivors (s : TrimState) (o : S3Object) (deleted : Bool) :
    (s.request o deleted).survivors = s.survivors := by
  cases deleted <;> rfl

theorem expire_requested (s : TrimState) (o : S3Object) :
    (s.expire server isExpired o).result.requested =
      s.result.requested ++ if isExpired o then [o.key] else [] := by
  rw [expire]
  split
  · simp only
    split <;> exact request_requested s o _
  · exact (append_nil _).symm

theorem mem_survivors_expire {survivor : S3Object}
    (h : survivor ∈ (s.expire server isExpired o).survivors) :
    survivor ∈ s.survivors ∨ survivor = o := by
  have hpush : ∀ survivors : List S3Object, survivor ∈ survivors ++ [o] →
      survivor ∈ survivors ∨ survivor = o := by
    intro survivors hmem
    simpa using hmem
  rw [expire] at h
  split at h
  · simp only at h
    split at h
    · rw [request_survivors] at h
      exact .inl h
    · rw [request_survivors] at h
      exact hpush _ h
  · exact hpush _ h

/-- The first loop asks for exactly the expired objects, in order. -/
theorem foldl_expire_requested (objects : List S3Object) (s : TrimState) :
    (objects.foldl (expire server isExpired) s).result.requested =
      s.result.requested ++ (objects.filter isExpired).map S3Object.key := by
  induction objects generalizing s with
  | nil => exact (append_nil _).symm
  | cons o objects ih =>
    rw [foldl_cons, ih, expire_requested, append_assoc]
    cases h : isExpired o with
    | true => rw [filter_cons_of_pos h]; rfl
    | false => rw [filter_cons_of_neg (by simp [h])]; rfl

theorem mem_survivors_foldl {survivor : S3Object}
    (h : survivor ∈ (objects.foldl (expire server isExpired) s).survivors) :
    survivor ∈ s.survivors ∨ survivor ∈ objects := by
  induction objects generalizing s with
  | nil => exact .inl h
  | cons o objects ih =>
    rcases ih h with hmem | hmem
    · rcases mem_survivors_expire server isExpired hmem with hmem | rfl
      · exact .inl hmem
      · exact .inr mem_cons_self
    · exact .inr (mem_cons_of_mem _ hmem)

theorem evictOne_requested (s : TrimState) (o : S3Object) :
    (evictOne server s o).result.requested = s.result.requested ++ [o.key] := by
  rw [evictOne]
  simp only
  split <;> exact request_requested s o _

theorem evict_requested (target : Nat) (objects : List S3Object) (s : TrimState) :
    ∃ evicted : List S3Object, (∀ o ∈ evicted, o ∈ objects) ∧
      (evict server target s objects).result.requested =
        s.result.requested ++ evicted.map S3Object.key := by
  induction objects generalizing s with
  | nil => exact ⟨[], fun _ h => h, (append_nil _).symm⟩
  | cons o objects ih =>
    rw [evict]
    split
    · exact ⟨[], by simp, (append_nil _).symm⟩
    · obtain ⟨evicted, hmem, heq⟩ := ih (evictOne server s o)
      refine ⟨o :: evicted, ?_, ?_⟩
      · intro other hother
        rcases mem_cons.mp hother with rfl | hother
        · exact mem_cons_self
        · exact mem_cons_of_mem _ (hmem other hother)
      · rw [heq, evictOne_requested, append_assoc]
        rfl

end TrimState

section Requested

variable {server : S3Server} {config : S3CacheConfig} {run : TrimRun}

/-- The order `std::sort` may leave. -/
def TrimRun.Sorts (run : TrimRun) : Prop :=
  ∀ objects, (run.oldestFirst objects).Perm objects ∧
    (run.oldestFirst objects).Pairwise (fun a b => a.lastModified ≤ b.lastModified)

theorem trimExpired_requested (objects : List S3Object) :
    (trimExpired server config run objects).result.requested =
      ((run.oldestFirst objects).filter (isExpired config run.now)).map S3Object.key := by
  rw [trimExpired, TrimState.foldl_expire_requested]
  rfl

theorem mem_trimExpired_survivors (hsorts : run.Sorts)
    (h : o ∈ (trimExpired server config run objects).survivors) : o ∈ objects := by
  rcases TrimState.mem_survivors_foldl server _ h with hmem | hmem
  · cases hmem
  · exact (hsorts objects).1.mem_iff.mp hmem

/-- The keys `Trim` deletes: the expired objects and then some of the survivors. -/
theorem trim_requested (server : S3Server) (hsorts : run.Sorts) (hrun : run.available = true)
    (hwrite : run.readOnly = false) (hlimit : ¬ (config.ttlDays ≤ 0 ∧ config.maxSize = 0)) :
    ∃ evicted : List S3Object, (∀ o ∈ evicted, o ∈ (listAll server config.keyPrefix).1) ∧
      (trim server config run).requested =
        ((run.oldestFirst (listAll server config.keyPrefix).1).filter
          (isExpired config run.now)).map S3Object.key ++ evicted.map S3Object.key := by
  rw [trim, if_neg (by simp [hrun, hwrite]), if_neg hlimit]
  simp only
  split
  · obtain ⟨evicted, hmem, heq⟩ := TrimState.evict_requested server (run.target config.maxSize)
      (trimExpired server config run (listAll server config.keyPrefix).1).survivors
      (trimExpired server config run (listAll server config.keyPrefix).1)
    refine ⟨evicted, fun o ho => mem_trimExpired_survivors hsorts (hmem o ho), ?_⟩
    rw [heq, trimExpired_requested]
  · exact ⟨[], by simp, by rw [trimExpired_requested, map_nil, append_nil]⟩

theorem mem_listAll_of_requested (hsorts : run.Sorts) {key : Str}
    (h : key ∈ (trim server config run).requested) :
    ∃ o ∈ (listAll server config.keyPrefix).1, o.key = key := by
  by_cases hrun : run.available = true ∧ run.readOnly = false
  · by_cases hlimit : config.ttlDays ≤ 0 ∧ config.maxSize = 0
    · rw [trim, if_neg (by simp [hrun]), if_pos hlimit] at h
      cases h
    · obtain ⟨evicted, hmem, heq⟩ := trim_requested server hsorts hrun.1 hrun.2 hlimit
      rw [heq, mem_append, mem_map, mem_map] at h
      rcases h with ⟨o, ho, rfl⟩ | ⟨o, ho, rfl⟩
      · exact ⟨o, (hsorts _).1.mem_iff.mp (mem_filter.mp ho).1, rfl⟩
      · exact ⟨o, hmem o ho, rfl⟩
  · have hoff : (!run.available || run.readOnly) = true := by
      cases ha : run.available <;> simp_all
    rw [trim, if_pos hoff] at h
    cases h

end Requested

/-! ## Whose objects are deleted -/

/-- How a listing spells a key: each character as it is or as an XML reference. -/
structure XmlSpelling where
  spellChar : Char → Str
  spellChar_cases : ∀ c, spellChar c = [c] ∨ ∃ name, spellChar c = '&' :: name
  spellChar_slash : spellChar '/' = ['/']

def XmlSpelling.spell (spelling : XmlSpelling) (key : Str) : Str :=
  key.flatMap spelling.spellChar

section Bucket

variable (server : S3Server) (spelling : XmlSpelling) (keyPrefix : Str) (bucket : List Str)

/-- A page lists objects of the bucket whose keys start with the prefix asked for. -/
def ListsOnly : Prop :=
  ∀ token body objects next, server.respond (listQuery keyPrefix token) = some body →
    parseListObjectsV2 body = some (objects, next) → ∀ o ∈ objects,
      ∃ key ∈ bucket, startsWith key keyPrefix = true ∧ o.key = spelling.spell key

/-- The pages a server answers with from a token on. -/
inductive Pages : Str → List (List S3Object) → Prop where
  | last {token body : Str} {objects : List S3Object}
      (hbody : server.respond (listQuery keyPrefix token) = some body)
      (hpage : parseListObjectsV2 body = some (objects, [])) : Pages token [objects]
  | more {token next body : Str} {objects : List S3Object} {pages : List (List S3Object)}
      (hbody : server.respond (listQuery keyPrefix token) = some body)
      (hpage : parseListObjectsV2 body = some (objects, next)) (hnext : next ≠ [])
      (hpages : Pages next pages) : Pages token (objects :: pages)

/-- The server lists every such object with the time it was written, within the page bound. -/
def ListsAll : Prop :=
  ∃ pages, Pages server keyPrefix [] pages ∧ pages.length ≤ kMaxPages ∧
    ∀ key ∈ bucket, startsWith key keyPrefix = true →
      ∃ o ∈ pages.flatten, o.key = spelling.spell key ∧ 0 < o.lastModified

/-- Whatever the ttl, the budget and the clock, `Trim` deletes only keys `ObjectKey` could have
made. -/
def TrimsOwnObjects : Prop :=
  ∀ ttlDays maxSize run, TrimRun.Sorts run →
    ∀ key ∈ (trim server ⟨keyPrefix, ttlDays, maxSize⟩ run).requested,
      startsWith key (objectPrefix keyPrefix) = true

/-- What a listing can show of the bucket is below the prefix. -/
def PrefixApart : Prop :=
  ∀ key ∈ bucket, startsWith key keyPrefix = true →
    startsWith (spelling.spell key) (objectPrefix keyPrefix) = true

end Bucket

section Own

variable {server : S3Server} {spelling : XmlSpelling} {keyPrefix : Str} {bucket : List Str}

theorem mem_listPages (hlists : ListsOnly server spelling keyPrefix bucket) (pages : Nat)
    (token : Str) (h : o ∈ (listPages server keyPrefix pages token).1) :
    ∃ key ∈ bucket, startsWith key keyPrefix = true ∧ o.key = spelling.spell key := by
  induction pages generalizing token with
  | zero => cases h
  | succ pages ih =>
    rw [listPages] at h
    split at h
    · cases h
    · rename_i objects next hpage
      obtain ⟨body, hbody, hparse⟩ := Option.bind_eq_some_iff.mp hpage
      split at h
      · exact hlists token body objects next hbody hparse o h
      · rcases mem_append.mp h with h | h
        · exact hlists token body objects next hbody hparse o h
        · exact ih next h

theorem listPages_of_pages {token : Str} {pages : List (List S3Object)}
    (h : Pages server keyPrefix token pages) {bound : Nat} (hbound : pages.length ≤ bound) :
    listPages server keyPrefix bound token = (pages.flatten, true) := by
  induction h generalizing bound with
  | last hbody hpage =>
    obtain ⟨rest, rfl⟩ : ∃ rest, bound = rest + 1 := ⟨bound - 1, by simp at hbound; omega⟩
    simp [listPages, hbody, hpage]
  | more hbody hpage hnext hpages ih =>
    obtain ⟨rest, rfl⟩ : ∃ rest, bound = rest + 1 := ⟨bound - 1, by simp at hbound; omega⟩
    have hrest := ih (Nat.le_of_succ_le_succ hbound)
    simp [listPages, hbody, hpage, hnext, hrest]

theorem trimsOwnObjects_of_prefixApart (hlists : ListsOnly server spelling keyPrefix bucket)
    (h : PrefixApart spelling keyPrefix bucket) : TrimsOwnObjects server keyPrefix := by
  intro ttlDays maxSize run hsorts requested hrequested
  obtain ⟨o, ho, rfl⟩ := mem_listAll_of_requested hsorts hrequested
  obtain ⟨key, hkey, hstart, hspell⟩ := mem_listPages hlists kMaxPages [] ho
  rw [hspell]
  exact h key hkey hstart

/-- A run one day and one second after an object was written, with a ttl of a day. -/
def dayLater (o : S3Object) : TrimRun where
  now := o.lastModified + 86401
  oldestFirst := List.insertionSort (fun a b => a.lastModified ≤ b.lastModified)
  target := fun maxSize => maxSize * 4 / 5

theorem sorts_dayLater (o : S3Object) : (dayLater o).Sorts := by
  intro objects
  have htotal : Std.Total (fun a b : S3Object => a.lastModified ≤ b.lastModified) :=
    ⟨fun a b => le_total a.lastModified b.lastModified⟩
  have htrans : IsTrans S3Object (fun a b => a.lastModified ≤ b.lastModified) :=
    ⟨fun _ _ _ => le_trans⟩
  exact ⟨perm_insertionSort _ _, pairwise_insertionSort _ _⟩

theorem prefixApart_of_trimsOwnObjects (hall : ListsAll server spelling keyPrefix bucket)
    (h : TrimsOwnObjects server keyPrefix) : PrefixApart spelling keyPrefix bucket := by
  intro key hkey hstart
  obtain ⟨pages, hpages, hbound, hlisted⟩ := hall
  obtain ⟨o, ho, hspell, htime⟩ := hlisted key hkey hstart
  have hlimit : ¬ ((⟨keyPrefix, 1, 0⟩ : S3CacheConfig).ttlDays ≤ 0 ∧
      (⟨keyPrefix, 1, 0⟩ : S3CacheConfig).maxSize = 0) := by simp
  obtain ⟨evicted, -, hrequested⟩ := trim_requested server (sorts_dayLater o) rfl rfl hlimit
  rw [← hspell]
  refine h 1 0 (dayLater o) (sorts_dayLater o) o.key ?_
  rw [hrequested]
  refine mem_append_left _ (mem_map_of_mem (mem_filter.mpr ⟨?_, ?_⟩))
  · rw [(sorts_dayLater o _).1.mem_iff, listAll, listPages_of_pages hpages hbound]
    exact ho
  · have hage : (86400 : Int) < o.lastModified + 86401 - o.lastModified := by omega
    simp [isExpired, dayLater, htime, hage]

theorem spell_of_plain {text : Str} (h : ∀ c ∈ text, spelling.spellChar c = [c]) :
    spelling.spell text = text := by
  induction text with
  | nil => rfl
  | cons c text ih =>
    have hrest := ih (fun d hd => h d (mem_cons_of_mem _ hd))
    rw [XmlSpelling.spell, flatMap_cons, h c mem_cons_self]
    exact congrArg (c :: ·) hrest

theorem head?_spell_eq_slash_iff (text : Str) :
    (spelling.spell text).head? = some '/' ↔ text.head? = some '/' := by
  cases text with
  | nil => exact Iff.rfl
  | cons c text =>
    have hslash := spelling.spellChar_slash
    rw [XmlSpelling.spell, flatMap_cons]
    rcases spelling.spellChar_cases c with hc | ⟨name, hc⟩
    · rw [hc]
      exact Iff.rfl
    · rw [hc]
      refine iff_of_false (by simp) (fun heq => ?_)
      obtain rfl : c = '/' := Option.some.inj heq
      rw [hslash] at hc
      cases hc

theorem startsWith_slash_iff (text rest : Str) :
    startsWith (text ++ rest) (text ++ ['/']) = true ↔ rest.head? = some '/' := by
  rw [startsWith_iff]
  constructor
  · rintro ⟨tail, heq⟩
    rw [append_assoc] at heq
    rw [append_cancel_left heq]
    rfl
  · intro hhead
    obtain ⟨tail, rfl⟩ := head?_eq_some_iff.mp hhead
    exact ⟨tail, by rw [append_assoc]; rfl⟩

/-- A prefix without references is spelled as it is, and so is the slash behind it. -/
theorem startsWith_spell_iff (hplain : ∀ c ∈ keyPrefix, spelling.spellChar c = [c]) {key : Str}
    (hkey : startsWith key keyPrefix = true) :
    startsWith (spelling.spell key) (objectPrefix keyPrefix) = true ↔
      startsWith key (objectPrefix keyPrefix) = true := by
  obtain ⟨rest, rfl⟩ := startsWith_iff.mp hkey
  have hspell : spelling.spell (keyPrefix ++ rest) = keyPrefix ++ spelling.spell rest := by
    rw [XmlSpelling.spell, flatMap_append]
    exact congrArg (· ++ spelling.spell rest) (spell_of_plain hplain)
  rw [hspell, objectPrefix]
  split
  · rw [startsWith_slash_iff, startsWith_slash_iff, head?_spell_eq_slash_iff]
  · simp

/-- `Trim` deletes only this cache's objects exactly when what the listing shows of the bucket
under the prefix is below the prefix. -/
theorem trimsOwnObjects_iff (hlists : ListsOnly server spelling keyPrefix bucket) :
    (PrefixApart spelling keyPrefix bucket → TrimsOwnObjects server keyPrefix) ∧
    (ListsAll server spelling keyPrefix bucket →
      (TrimsOwnObjects server keyPrefix ↔ PrefixApart spelling keyPrefix bucket)) ∧
    ((∀ c ∈ keyPrefix, spelling.spellChar c = [c]) →
      (PrefixApart spelling keyPrefix bucket ↔ ∀ key ∈ bucket,
        startsWith key keyPrefix = true → startsWith key (objectPrefix keyPrefix) = true)) := by
  have hown := trimsOwnObjects_of_prefixApart hlists
  refine ⟨hown, fun hall => ⟨prefixApart_of_trimsOwnObjects hall, hown⟩, fun hplain => ?_⟩
  refine forall_congr' (fun key => forall_congr' (fun _ => ?_))
  constructor
  · intro h hstart
    exact (startsWith_spell_iff hplain hstart).mp (h hstart)
  · intro h hstart
    exact (startsWith_spell_iff hplain hstart).mpr (h hstart)

end Own

/-! ## Unknown sizes and times -/

def totalBytes (objects : List S3Object) : Nat := (objects.map S3Object.size).sum % 2 ^ 64

/-- How many objects the second loop deletes when every delete succeeds. -/
def evictions (target : Nat) : List S3Object → Nat
  | [] => 0
  | o :: os => if totalBytes (o :: os) ≤ target then 0 else evictions target os + 1

def unexpired (config : S3CacheConfig) (run : TrimRun) (objects : List S3Object) :
    List S3Object :=
  (run.oldestFirst objects).filter (fun o => !isExpired config run.now o)

/-- No object is deleted for a field that is unknown, and none for the budget that is younger
than one that is kept, as far as both are known. -/
def JudgesByKnown (expired evicted kept : List S3Object) : Prop :=
  (∀ o ∈ expired, o.lastModified ≠ 0) ∧ (∀ o ∈ evicted, o.size ≠ 0) ∧
    ∀ o ∈ evicted, o.lastModified ≠ 0 → ∀ other ∈ kept, other.lastModified ≠ 0 →
      other.size ≠ 0 → o.lastModified ≤ other.lastModified

theorem lt_evictions_iff {target n : Nat} :
    n < evictions target objects ↔
      n < objects.length ∧ ∀ m ≤ n, target < totalBytes (objects.drop m) := by
  induction objects generalizing n with
  | nil => simp [evictions]
  | cons o os ih =>
    rw [evictions]
    split
    · rename_i hle
      refine iff_of_false (Nat.not_lt_zero n) (fun h => ?_)
      exact absurd (h.2 0 (Nat.zero_le n)) (Nat.not_lt.mpr hle)
    · rename_i hlt
      cases n with
      | zero => simpa using hlt
      | succ n =>
        rw [Nat.succ_lt_succ_iff, ih, length_cons, Nat.succ_lt_succ_iff]
        refine and_congr_right (fun _ => ⟨fun h m hm => ?_, fun h m hm => ?_⟩)
        · cases m with
          | zero => exact Nat.not_le.mp hlt
          | succ m => exact h m (Nat.le_of_succ_le_succ hm)
        · exact h (m + 1) (Nat.succ_le_succ hm)

theorem forall_mem_take_iff {α : Type} {p : α → Prop} {n : Nat} {l : List α} :
    (∀ x ∈ l.take n, p x) ↔
      ∀ front x back, l = front ++ x :: back → front.length < n → p x := by
  constructor
  · rintro h front x back rfl hlt
    refine h x (mem_take_iff_getElem.mpr ⟨front.length, ?_, ?_⟩)
    · simpa using hlt
    · simp
  · intro h x hx
    obtain ⟨front, back, heq⟩ := append_of_mem hx
    have hlt := congrArg length heq
    rw [length_take, length_append, length_cons] at hlt
    refine h front x (back ++ l.drop n) ?_ (by omega)
    rw [← cons_append, ← append_assoc, ← heq, take_append_drop]

theorem totalBytes_remove (front back : List S3Object) (h : o.size < 2 ^ 64) :
    (totalBytes (front ++ o :: back) + 2 ^ 64 - o.size) % 2 ^ 64 = totalBytes (front ++ back) := by
  simp only [totalBytes, map_append, map_cons, sum_append, sum_cons]
  omega

namespace TrimState

variable {server : S3Server} {isExpired : S3Object → Bool}
  (hdelete : ∀ n key, server.delete n key = true)
include hdelete

theorem foldl_expire_all
    (hsize : ∀ o ∈ objects, o.size < 2 ^ 64)
    (hremaining : s.remaining = totalBytes (s.survivors ++ objects)) :
    let after := objects.foldl (expire server isExpired) s
    after.survivors = s.survivors ++ objects.filter (fun o => !isExpired o) ∧
      after.remaining = totalBytes after.survivors ∧ after.result.evicted = s.result.evicted := by
  induction objects generalizing s with
  | nil => simpa using hremaining
  | cons o os ih =>
    obtain ⟨ho, hos⟩ := forall_mem_cons.mp hsize
    rw [foldl_cons]
    cases hexpired : isExpired o with
    | true =>
      have hnext := ih (s := expire server isExpired s o) hos
      simp only [expire, hexpired, hdelete, request, if_true, hremaining, totalBytes_remove _ _ ho,
        forall_true_left] at hnext ⊢
      simpa [hexpired] using hnext
    | false =>
      have hnext := ih (s := expire server isExpired s o) hos
      simp only [expire, hexpired, Bool.false_eq_true, if_false, append_assoc, singleton_append,
        hremaining, forall_true_left] at hnext ⊢
      simpa [hexpired] using hnext

theorem evict_all (target : Nat)
    (hsize : ∀ o ∈ objects, o.size < 2 ^ 64) (hremaining : s.remaining = totalBytes objects) :
    let result := (evict server target s objects).result
    result.evicted = s.result.evicted + evictions target objects ∧ result.requested =
      s.result.requested ++ (objects.take (evictions target objects)).map S3Object.key := by
  induction objects generalizing s with
  | nil => simp [evict, evictions]
  | cons o os ih =>
    obtain ⟨ho, hos⟩ := forall_mem_cons.mp hsize
    rw [evict, evictions, hremaining]
    split
    · simp
    · have hnext := ih (s := evictOne server s o) hos
      have hleft := totalBytes_remove [] os ho
      simp only [evictOne, hdelete, request, if_true, hremaining, nil_append] at hleft hnext ⊢
      obtain ⟨hevicted, hrequested⟩ := hnext hleft
      exact ⟨by rw [hevicted]; omega, by rw [hrequested]; simp⟩

end TrimState

theorem parseSize_lt (text : Str) : parseSize text < 2 ^ 64 := by
  have hread : ∀ (negative : Bool) (value : Nat), (if 2 ^ 64 ≤ value then 2 ^ 64 - 1
      else if negative then (2 ^ 64 - value) % 2 ^ 64 else value) < 2 ^ 64 := by
    intro negative value
    split_ifs <;> omega
  exact hread _ _

theorem size_lt_of_parseEntry {contents : Nat}
    (h : parseEntry xml contents = some o) : o.size < 2 ^ 64 := by
  obtain ⟨⟨key, cursor⟩, -, rfl⟩ := Option.map_eq_some_iff.mp h
  dsimp only
  cases elementText xml "Size".toList cursor with
  | none => simp
  | some size => exact parseSize_lt size.1

theorem size_lt_of_mem_parseContents {turns : Nat}
    (h : o ∈ parseContents turns xml pos) : o.size < 2 ^ 64 := by
  induction turns generalizing pos with
  | zero => cases h
  | succ turns ih =>
    rw [parseContents] at h
    split at h
    · cases h
    · split at h
      · cases h
      · rename_i entry hentry
        rcases mem_cons.mp h with rfl | h
        · exact size_lt_of_parseEntry hentry
        · split at h
          · cases h
          · exact ih h

theorem size_lt_of_mem_listPages {server : S3Server} {keyPrefix token : Str} {pages : Nat}
    (h : o ∈ (listPages server keyPrefix pages token).1) : o.size < 2 ^ 64 := by
  induction pages generalizing token with
  | zero => cases h
  | succ pages ih =>
    rw [listPages] at h
    split at h
    · cases h
    · rename_i objects next hpage
      obtain ⟨body, -, hparse⟩ := Option.bind_eq_some_iff.mp hpage
      have hobjects : ∀ o ∈ objects, o.size < 2 ^ 64 := by
        intro o ho
        rw [parseListObjectsV2] at hparse
        split at hparse
        · cases hparse
          exact size_lt_of_mem_parseContents ho
        · cases hparse
      split at h
      · exact hobjects o h
      · rcases mem_append.mp h with h | h
        · exact hobjects o h
        · exact ih h

section Known

variable {server : S3Server} (config : S3CacheConfig) {run : TrimRun}

theorem trimExpired_all (hdelete : ∀ n key, server.delete n key = true) (hsorts : run.Sorts)
    (hsize : ∀ o ∈ objects, o.size < 2 ^ 64) :
    let s := trimExpired server config run objects
    s.survivors = unexpired config run objects ∧ s.remaining = totalBytes s.survivors ∧
      s.result.evicted = 0 := by
  have hsum := ((hsorts objects).1.map S3Object.size).sum_nat
  refine TrimState.foldl_expire_all hdelete
    (fun o ho => hsize o ((hsorts objects).1.mem_iff.mp ho)) ?_
  exact congrArg (· % 2 ^ 64) hsum.symm

/-- What is deleted when every delete succeeds. -/
theorem trim_all (hdelete : ∀ n key, server.delete n key = true) (hsorts : run.Sorts)
    (hrun : run.available = true) (hwrite : run.readOnly = false) :
    let objects := (listAll server config.keyPrefix).1
    let rest := unexpired config run objects
    let result := trim server config run
    result.evicted = (if 0 < config.maxSize ∧ config.maxSize < totalBytes rest then
      evictions (run.target config.maxSize) rest else 0) ∧
    result.requested = ((run.oldestFirst objects).filter
      (isExpired config run.now)).map S3Object.key ++
      (rest.take result.evicted).map S3Object.key := by
  intro objects rest result
  have hlisted : ∀ o ∈ objects, o.size < 2 ^ 64 := fun o ho => size_lt_of_mem_listPages ho
  have hsize : ∀ o ∈ rest, o.size < 2 ^ 64 := fun o ho =>
    hlisted o ((hsorts objects).1.mem_iff.mp (mem_filter.mp ho).1)
  obtain ⟨hsurvivors, hremaining, hevicted⟩ := trimExpired_all config hdelete hsorts hlisted
  have hrequested : (trimExpired server config run objects).result.requested = _ :=
    trimExpired_requested objects
  rw [hsurvivors] at hremaining
  simp only [result, trim, hrun, hwrite, Bool.not_true, Bool.or_self, Bool.false_eq_true, if_false]
  split
  · rename_i hlimit
    have hnone : (run.oldestFirst objects).filter (isExpired config run.now) = [] := by
      refine filter_eq_nil_iff.mpr (fun o _ => ?_)
      simp [isExpired, Int.not_lt.mpr hlimit.1]
    simp [hlimit.2, hnone]
  · rw [hsurvivors, hremaining]
    split
    · obtain ⟨hcount, hkeys⟩ := TrimState.evict_all hdelete (run.target config.maxSize) hsize
        hremaining
      rw [hevicted, Nat.zero_add] at hcount
      exact ⟨hcount, by rw [hkeys, hcount, hrequested]⟩
    · exact ⟨hevicted, by rw [hevicted, hrequested]; simp⟩

/-- `Trim` judges by what it knows exactly when enough can be deleted, from the oldest object on,
before it comes to one of unknown size. -/
theorem trim_judgesByKnown_iff (server : S3Server) (config : S3CacheConfig) (run : TrimRun)
    (hdelete : ∀ n key, server.delete n key = true) (hsorts : run.Sorts)
    (hrun : run.available = true) (hwrite : run.readOnly = false) :
    let objects := (listAll server config.keyPrefix).1
    let expired := (run.oldestFirst objects).filter (isExpired config run.now)
    let rest := unexpired config run objects
    let result := trim server config run
    result.requested =
      expired.map S3Object.key ++ (rest.take result.evicted).map S3Object.key ∧
    (JudgesByKnown expired (rest.take result.evicted) (rest.drop result.evicted) ↔
      config.maxSize = 0 ∨ totalBytes rest ≤ config.maxSize ∨
        ∀ front o back, rest = front ++ o :: back → o.size = 0 →
          ∃ n ≤ front.length, totalBytes (rest.drop n) ≤ run.target config.maxSize) := by
  intro objects expired rest result
  obtain ⟨hevicted, hrequested⟩ := trim_all config hdelete hsorts hrun hwrite
  refine ⟨hrequested, ?_⟩
  have hordered : rest.Pairwise (fun a b => a.lastModified ≤ b.lastModified) :=
    (hsorts objects).2.filter _
  rw [← take_append_drop result.evicted rest, pairwise_append] at hordered
  have hjudges : JudgesByKnown expired (rest.take result.evicted) (rest.drop result.evicted) ↔
      ∀ o ∈ rest.take result.evicted, o.size ≠ 0 := by
    refine ⟨fun h => h.2.1, fun h => ⟨?_, h, fun o ho _ other hother _ _ => ?_⟩⟩
    · intro o ho
      have hexpired := (mem_filter.mp ho).2
      simp only [isExpired, Bool.and_eq_true, decide_eq_true_eq] at hexpired
      omega
    · exact hordered.2.2 o ho other hother
  have hbound : ∀ front o back, rest = front ++ o :: back → front.length < rest.length := by
    intro front o back heq
    simp [heq]
  rw [hjudges, forall_mem_take_iff]
  change result.evicted = (if 0 < config.maxSize ∧ config.maxSize < totalBytes rest then
    evictions (run.target config.maxSize) rest else 0) at hevicted
  rw [hevicted]
  split
  · rename_i hover
    rw [or_iff_right (by omega), or_iff_right (by omega)]
    refine forall₄_congr (fun front o back heq => ?_)
    rw [lt_evictions_iff, and_iff_right (hbound front o back heq)]
    constructor
    · intro h hzero
      by_contra hnone
      push Not at hnone
      exact h hnone hzero
    · intro h hnone hzero
      obtain ⟨n, hn, hle⟩ := h hzero
      exact absurd (hnone n hn) (Nat.not_lt.mpr hle)
  · rename_i hwithin
    refine iff_of_true (fun _ _ _ _ h => absurd h (Nat.not_lt_zero _)) ?_
    omega

end Known

/-! ## Two caches in one bucket -/

def plainSpelling : XmlSpelling := ⟨fun c => [c], fun _ => .inl rfl, rfl⟩

def oneObjectPage (key : String) : Str :=
  "<ListBucketResult><Contents><Key>".toList ++ key.toList ++
    ("</Key><LastModified>2024-01-01T00:00:00.000Z</LastModified><Size>5</Size></Contents>" ++
      "<IsTruncated>false</IsTruncated></ListBucketResult>").toList

/-- A server with one object, which it lists on one page. -/
def oneObjectServer (key : String) : S3Server where
  respond _ := some (oneObjectPage key)
  delete _ _ := true

def oneObject (key : String) : S3Object := ⟨key.toList, 5, 1704067200⟩

theorem oneObjectServer_lists (key : String) (keyPrefix : Str) (others : List Str)
    (hpage : parseListObjectsV2 (oneObjectPage key) = some ([oneObject key], []))
    (hkey : startsWith key.toList keyPrefix = true)
    (hothers : ∀ other ∈ others, startsWith other keyPrefix = false) :
    ListsOnly (oneObjectServer key) plainSpelling keyPrefix (key.toList :: others) ∧
      ListsAll (oneObjectServer key) plainSpelling keyPrefix (key.toList :: others) := by
  have hspell : plainSpelling.spell key.toList = key.toList :=
    spell_of_plain (fun c _ => rfl)
  constructor
  · intro token body objects next hbody hparse o ho
    cases hbody
    cases hparse.symm.trans hpage
    obtain rfl := mem_singleton.mp ho
    exact ⟨key.toList, mem_cons_self, hkey, hspell.symm⟩
  · refine ⟨[[oneObject key]], .last rfl hpage, (by decide : 1 ≤ kMaxPages), ?_⟩
    intro other hother hstart
    obtain rfl | hother := mem_cons.mp hother
    · exact ⟨oneObject key, mem_singleton_self _, hspell.symm,
        (by decide : (0 : Int) < 1704067200)⟩
    · rw [hothers other hother] at hstart
      cases hstart

theorem trimsOwnObjects_beside_foreign :
    ListsOnly (oneObjectServer "vc/ab/cdef") plainSpelling "vc".toList
        ["vc/ab/cdef".toList, "logs/vc/ab".toList] ∧
      TrimsOwnObjects (oneObjectServer "vc/ab/cdef") "vc".toList := by
  have hlists := (oneObjectServer_lists "vc/ab/cdef" "vc".toList ["logs/vc/ab".toList]
    (by decide +kernel) (by decide) (by decide)).1
  have hiff := trimsOwnObjects_iff hlists
  exact ⟨hlists, hiff.1 ((hiff.2.2 (fun c _ => rfl)).mpr (by decide))⟩

/-- With the prefix `vc`, the objects of a cache under `vc2` are deleted. -/
theorem not_trimsOwnObjects_sibling :
    let server := oneObjectServer "vc2/ab/cdef"
    let run := dayLater (oneObject "vc2/ab/cdef")
    ListsOnly server plainSpelling "vc".toList ["vc2/ab/cdef".toList] ∧
      ListsAll server plainSpelling "vc".toList ["vc2/ab/cdef".toList] ∧ run.Sorts ∧
      (trim server ⟨"vc".toList, 1, 0⟩ run).requested = ["vc2/ab/cdef".toList] ∧
      startsWith "vc2/ab/cdef".toList (objectPrefix "vc".toList) = false := by
  have hlists := oneObjectServer_lists "vc2/ab/cdef" "vc".toList [] (by decide +kernel)
    (by decide) (by decide)
  exact ⟨hlists.1, hlists.2, sorts_dayLater _, by decide +kernel, by decide⟩

/-- A server with an object of five bytes and one that is listed without size and, unless its text
follows the key, without time. -/
def unknownServer (modified : String) : S3Server where
  respond _ := some (("<ListBucketResult><Contents><Key>b</Key><LastModified>" ++
    "2024-01-01T00:00:00.000Z</LastModified><Size>5</Size></Contents><Contents><Key>a</Key>" ++
    modified ++ "</Contents><IsTruncated>false</IsTruncated></ListBucketResult>").toList)
  delete _ _ := true

/-- A server whose object of unknown size is the younger one. -/
def laterUnknownServer : S3Server :=
  unknownServer "<LastModified>2024-02-01T00:00:00.000Z</LastModified>"

/-- The object of known size is over the budget and goes, and the one of unknown size stays. -/
theorem trim_judgesByKnown_iff_younger_unknown :
    let result := trim laterUnknownServer ⟨[], 0, 4⟩ (dayLater (oneObject "b"))
    result.requested = ["b".toList] ∧ result.evicted = 1 ∧
      JudgesByKnown [] [oneObject "b"] [⟨"a".toList, 0, 1706745600⟩] := by
  have hlisted :
      (listAll laterUnknownServer []).1 = [oneObject "b", ⟨"a".toList, 0, 1706745600⟩] := by
    decide +kernel
  obtain ⟨hrequested, hevicted⟩ : (trim laterUnknownServer ⟨[], 0, 4⟩
      (dayLater (oneObject "b"))).requested = ["b".toList] ∧ (trim laterUnknownServer ⟨[], 0, 4⟩
      (dayLater (oneObject "b"))).evicted = 1 := by decide +kernel
  have hiff := (trim_judgesByKnown_iff laterUnknownServer ⟨[], 0, 4⟩ (dayLater (oneObject "b"))
    (fun _ _ => rfl) (sorts_dayLater _) rfl rfl).2
  simp only [hlisted, hevicted] at hiff
  refine ⟨hrequested, hevicted, hiff.mpr (.inr (.inr ?_))⟩
  intro front o back heq hzero
  change [oneObject "b", ⟨"a".toList, 0, 1706745600⟩] = _ at heq
  cases front with
  | nil =>
    cases heq
    cases hzero
  | cons first front => exact ⟨1, by simp, by decide⟩

/-- The object of unknown size goes first, and nothing is freed. -/
theorem trim_evicts_unknown_size :
    (listAll (unknownServer "") []).1 = [oneObject "b", ⟨"a".toList, 0, 0⟩] ∧
      (dayLater (oneObject "b")).Sorts ∧
      (trim (unknownServer "") ⟨[], 0, 4⟩ (dayLater (oneObject "b"))).requested =
        ["a".toList, "b".toList] ∧
      (trim (unknownServer "") ⟨[], 0, 4⟩ (dayLater (oneObject "b"))).expired = 0 :=
  ⟨by decide +kernel, sorts_dayLater _, by decide +kernel, by decide +kernel⟩

end Vcache
