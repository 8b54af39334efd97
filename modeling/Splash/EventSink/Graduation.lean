import Splash.EventSink.Handler
import Splash.Lib.TextForm

/-!
# Graduated pools

The event sink tracks the live outputs of Snek pools and the Splash pools they graduate to. Every
transaction that touches a Snek pool leaves an entry in a journal, by which it can be rolled back.
The state is kept in memory and, in the same transaction of the database each time, on disk, where
keys and values are texts.

* `parseJournalEntry_encode` — entries of the journal are read back.
* `loadState_of_mirrors` — a database that mirrors the memory is loaded as that memory.
* `Mirrors.persistObservation`, `Mirrors.persistRollback` — the two copies stay the same.
-/

namespace Splash.EventSink.Graduation

open Lib TextForm List OrdMap

/-- A policy id and an asset name. -/
abbrev Token (P N : Type) := P ×ₗ N

structure GraduationJournalEntry (P N : Type) where
  consumedSnekRefs : List (OutputRef × Token P N)
  producedSnekRefs : List (OutputRef × Token P N)
  graduatedSplashIds : List (Token P N)

variable {P N : Type}

/-- The state in memory: the graduated pools, the journal and the live outputs of Snek pools. -/
@[ext]
structure Memory (P N : Type) [LinearOrder P] [LinearOrder N] where
  graduated : OrdMap (Token P N) Unit
  journal : OrdMap ℕ (GraduationJournalEntry P N)
  tracker : OrdMap OutputRef (Token P N)

/-- A transaction as far as the tracking of graduations goes: its inputs, its outputs that are Snek
pools, and the identifiers of the entities it produces. -/
structure SnekTx (P N : Type) where
  hash : ℕ
  inputs : List OutputRef
  snekOutputs : List (ℕ × Token P N)
  producedSplashIds : List (Token P N)

/-! ## The state in memory -/

namespace Memory

variable [LinearOrder P] [LinearOrder N]

def empty : Memory P N := ⟨.empty, .empty, .empty⟩

section

variable (m : Memory P N) (txHash : ℕ) (entry : GraduationJournalEntry P N)

def applyObservationEntry : Memory P N where
  graduated := entry.graduatedSplashIds.foldl (fun s id => s.insert id ()) m.graduated
  journal := m.journal.insert txHash entry
  tracker := entry.producedSnekRefs.foldl (fun t e => t.insert e.1 e.2)
    (entry.consumedSnekRefs.foldl (fun t e => t.erase e.1) m.tracker)

def rollbackEntry : Memory P N where
  graduated := entry.graduatedSplashIds.foldl (fun s id => s.erase id) m.graduated
  journal := m.journal.erase txHash
  tracker := entry.consumedSnekRefs.foldl (fun t e => t.insert e.1 e.2)
    (entry.producedSnekRefs.foldl (fun t e => t.erase e.1) m.tracker)

/-- The tracked outputs among the inputs of a transaction. -/
def consumedSnekRefs (inputs : List OutputRef) : List (OutputRef × Token P N) :=
  inputs.filterMap fun r => (m.tracker.get? r).map fun id => (r, id)

/-- The journal entry of a transaction. A pool graduates when Snek outputs are consumed, none is
produced, and there is just one produced entity. -/
def observation (tx : SnekTx P N) : GraduationJournalEntry P N where
  consumedSnekRefs := m.consumedSnekRefs tx.inputs
  producedSnekRefs := tx.snekOutputs.map fun o => (toLex (tx.hash, o.1), o.2)
  graduatedSplashIds :=
    if (m.consumedSnekRefs tx.inputs).isEmpty then []
    else if tx.snekOutputs.isEmpty && tx.producedSplashIds.length == 1 then tx.producedSplashIds
    else []

/-- Transactions without Snek outputs on either side are not journaled. -/
def observes (tx : SnekTx P N) : Bool :=
  !(m.consumedSnekRefs tx.inputs).isEmpty || !tx.snekOutputs.isEmpty

end

end Memory

/-! ## The state on disk -/

def graduatedPoolKeyPrefix : Text := "graduated:".toList

def snekPoolInputKeyPrefix : Text := "snek-input:".toList

def journalKeyPrefix : Text := "journal:".toList

/-- How the parts of keys and values are printed. -/
structure Texts (P N : Type) where
  hash : TextForm ℕ
  index : TextForm ℕ
  policy : TextForm P
  name : TextForm N

namespace Texts

variable (texts : Texts P N)

def tokenKeyValue (token : Token P N) : Text :=
  joined '.' texts.policy texts.name (ofLex token)

def parseToken (raw : Text) : Option (Token P N) :=
  (parseJoined '.' texts.policy texts.name raw).map toLex

def outputRefText (ref : OutputRef) : Text :=
  joined '#' texts.hash texts.index (ofLex ref)

def parseOutputRef (raw : Text) : Option OutputRef :=
  (parseJoined '#' texts.hash texts.index raw).map toLex

def graduatedPoolKey (id : Token P N) : Text := graduatedPoolKeyPrefix ++ texts.tokenKeyValue id

def snekPoolInputKey (ref : OutputRef) : Text := snekPoolInputKeyPrefix ++ texts.outputRefText ref

def journalKey (txHash : ℕ) : Text := journalKeyPrefix ++ texts.hash.print txHash

def refLine (tag : Char) (e : OutputRef × Token P N) : Text :=
  [' '].intercalate [[tag], texts.outputRefText e.1, texts.tokenKeyValue e.2]

def tokenLine (tag : Char) (id : Token P N) : Text :=
  [' '].intercalate [[tag], texts.tokenKeyValue id]

def encodeJournalEntry (entry : GraduationJournalEntry P N) : Text :=
  unlines (entry.consumedSnekRefs.map (texts.refLine 'C') ++
    entry.producedSnekRefs.map (texts.refLine 'P') ++
    entry.graduatedSplashIds.map (texts.tokenLine 'G'))

end Texts

/-- A line of the journal. -/
inductive Record (P N : Type) where
  | consumed (e : OutputRef × Token P N)
  | produced (e : OutputRef × Token P N)
  | graduated (id : Token P N)

namespace Record

def consumed? : Record P N → Option (OutputRef × Token P N)
  | consumed e => some e
  | produced _ => none
  | graduated _ => none

def produced? : Record P N → Option (OutputRef × Token P N)
  | consumed _ => none
  | produced e => some e
  | graduated _ => none

def graduated? : Record P N → Option (Token P N)
  | consumed _ => none
  | produced _ => none
  | graduated id => some id

end Record

namespace Texts

variable (texts : Texts P N)

def parseRef (rawRef rawToken : Text) : Option (OutputRef × Token P N) :=
  (texts.parseOutputRef rawRef).bind fun ref => (texts.parseToken rawToken).map fun id => (ref, id)

/-- Reads the words of a line; a line with too few or too many of them is invalid. -/
def parseRecord : List Text → Option (Record P N)
  | [tag, rawRef, rawToken] =>
    if tag = ['C'] then (texts.parseRef rawRef rawToken).map .consumed
    else if tag = ['P'] then (texts.parseRef rawRef rawToken).map .produced
    else none
  | [tag, rawToken] => if tag = ['G'] then (texts.parseToken rawToken).map .graduated else none
  | _ => none

def parseJournalEntry (raw : Text) : Option (GraduationJournalEntry P N) :=
  ((lines raw).mapM fun line => texts.parseRecord (line.splitOn ' ')).map fun records =>
    { consumedSnekRefs := records.filterMap Record.consumed?
      producedSnekRefs := records.filterMap Record.produced?
      graduatedSplashIds := records.filterMap Record.graduated? }

end Texts

abbrev Database := OrdMap Text Text

section Database

variable (texts : Texts P N)

section

variable (db : Database) (txHash : ℕ) (entry : GraduationJournalEntry P N)

def persistObservation : Database :=
  let db := entry.consumedSnekRefs.foldl (fun db e => db.erase (texts.snekPoolInputKey e.1)) db
  let db := entry.producedSnekRefs.foldl
    (fun db e => db.insert (texts.snekPoolInputKey e.1) (texts.tokenKeyValue e.2)) db
  let db := entry.graduatedSplashIds.foldl (fun db id => db.insert (texts.graduatedPoolKey id) []) db
  db.insert (texts.journalKey txHash) (texts.encodeJournalEntry entry)

def persistRollback : Database :=
  let db := entry.graduatedSplashIds.foldl (fun db id => db.erase (texts.graduatedPoolKey id)) db
  let db := entry.producedSnekRefs.foldl (fun db e => db.erase (texts.snekPoolInputKey e.1)) db
  let db := entry.consumedSnekRefs.foldl
    (fun db e => db.insert (texts.snekPoolInputKey e.1) (texts.tokenKeyValue e.2)) db
  db.erase (texts.journalKey txHash)

end

/-- The rest of a key behind a prefix. -/
def stripKey (start key : Text) : Option Text :=
  if start.isPrefixOf key then some (key.drop start.length) else none

variable [LinearOrder P] [LinearOrder N]

/-- Takes one stored entry into memory; keys with another prefix are passed over. -/
def loadEntry (m : Memory P N) (entry : Text × Text) : Option (Memory P N) :=
  (stripKey graduatedPoolKeyPrefix entry.1).elim
    ((stripKey snekPoolInputKeyPrefix entry.1).elim
      ((stripKey journalKeyPrefix entry.1).elim (some m) fun raw =>
        (texts.hash.parse raw).bind fun txHash =>
          (texts.parseJournalEntry entry.2).map fun e =>
            { m with journal := m.journal.insert txHash e })
      fun raw =>
        (texts.parseOutputRef raw).bind fun ref =>
          (texts.parseToken entry.2).map fun id => { m with tracker := m.tracker.insert ref id })
    fun raw => (texts.parseToken raw).map fun id =>
      { m with graduated := m.graduated.insert id () }

def loadState (db : Database) : Option (Memory P N) := db.toList.foldlM (loadEntry texts) .empty

end Database

/-! ## Reading back what was written -/

namespace Texts

variable (texts : Texts P N)

variable {ch tag : Char}

@[simp] theorem parseToken_tokenKeyValue (id : Token P N) :
    texts.parseToken (texts.tokenKeyValue id) = some id := by
  unfold parseToken tokenKeyValue
  rw [parseJoined_joined (by decide)]
  rfl

@[simp] theorem parseOutputRef_outputRefText (ref : OutputRef) :
    texts.parseOutputRef (texts.outputRefText ref) = some ref := by
  unfold parseOutputRef outputRefText
  rw [parseJoined_joined (by decide)]
  rfl

/-- Separators of the journal do not occur in a reference. -/
theorem not_mem_outputRefText (hch : ch.isAlphanum = false) (hne : ch ≠ '#') (ref : OutputRef) :
    ch ∉ texts.outputRefText ref :=
  not_mem_joined hch hne _

theorem not_mem_tokenKeyValue (hch : ch.isAlphanum = false) (hne : ch ≠ '.') (id : Token P N) :
    ch ∉ texts.tokenKeyValue id :=
  not_mem_joined hch hne _

/-- Neither do they occur in a line, but for the blank. -/
theorem not_mem_refLine (hch : ch.isAlphanum = false) (hhash : ch ≠ '#') (hdot : ch ≠ '.')
    (hblank : ch ≠ ' ') (htag : ch ≠ tag) (e : OutputRef × Token P N) :
    ch ∉ texts.refLine tag e := by
  have href := texts.not_mem_outputRefText hch hhash e.1
  have htoken := texts.not_mem_tokenKeyValue hch hdot e.2
  simp [refLine, href, htoken, hblank, htag]

theorem not_mem_tokenLine (hch : ch.isAlphanum = false) (hdot : ch ≠ '.') (hblank : ch ≠ ' ')
    (htag : ch ≠ tag) (id : Token P N) : ch ∉ texts.tokenLine tag id := by
  have htoken := texts.not_mem_tokenKeyValue hch hdot id
  simp [tokenLine, htoken, hblank, htag]

theorem splitOn_refLine (htag : ' ' ≠ tag) (e : OutputRef × Token P N) :
    (texts.refLine tag e).splitOn ' ' =
      [[tag], texts.outputRefText e.1, texts.tokenKeyValue e.2] := by
  have href : ' ' ∉ texts.outputRefText e.1 :=
    texts.not_mem_outputRefText (by decide) (by decide) e.1
  have htoken : ' ' ∉ texts.tokenKeyValue e.2 :=
    texts.not_mem_tokenKeyValue (by decide) (by decide) e.2
  apply words_joinWords
  · simp [href, htoken, htag]
  · simp

theorem splitOn_tokenLine (htag : ' ' ≠ tag) (id : Token P N) :
    (texts.tokenLine tag id).splitOn ' ' = [[tag], texts.tokenKeyValue id] := by
  have htoken : ' ' ∉ texts.tokenKeyValue id :=
    texts.not_mem_tokenKeyValue (by decide) (by decide) id
  apply words_joinWords
  · simp [htoken, htag]
  · simp

variable (entry : GraduationJournalEntry P N)

/-- The records of an entry, in the order in which they are written. -/
def records : List (Record P N) :=
  entry.consumedSnekRefs.map .consumed ++ entry.producedSnekRefs.map .produced ++
    entry.graduatedSplashIds.map .graduated

def recordLine : Record P N → Text
  | .consumed e => texts.refLine 'C' e
  | .produced e => texts.refLine 'P' e
  | .graduated id => texts.tokenLine 'G' id

theorem encodeJournalEntry_eq :
    texts.encodeJournalEntry entry = unlines ((records entry).map texts.recordLine) := by
  unfold encodeJournalEntry records
  simp only [map_append, map_map]
  rfl

theorem parseRecord_recordLine (r : Record P N) :
    texts.parseRecord ((texts.recordLine r).splitOn ' ') = some r := by
  cases r with
  | consumed e =>
    unfold recordLine
    rw [splitOn_refLine texts (by decide)]
    simp [parseRecord, parseRef]
  | produced e =>
    unfold recordLine
    rw [splitOn_refLine texts (by decide)]
    simp [parseRecord, parseRef]
  | graduated id =>
    unfold recordLine
    rw [splitOn_tokenLine texts (by decide)]
    simp [parseRecord]

theorem not_mem_recordLine (hch : ch.isAlphanum = false) (hhash : ch ≠ '#') (hdot : ch ≠ '.')
    (hblank : ch ≠ ' ') (r : Record P N) : ch ∉ texts.recordLine r := by
  have htag : ∀ tag : Char, tag.isAlphanum = true → ch ≠ tag := by
    rintro tag htag rfl
    rw [hch] at htag
    cases htag
  cases r with
  | consumed e => exact texts.not_mem_refLine hch hhash hdot hblank (htag 'C' (by decide)) e
  | produced e => exact texts.not_mem_refLine hch hhash hdot hblank (htag 'P' (by decide)) e
  | graduated id => exact texts.not_mem_tokenLine hch hdot hblank (htag 'G' (by decide)) id

/-- **Entries of the journal are read back.** -/
theorem parseJournalEntry_encode :
    texts.parseJournalEntry (texts.encodeJournalEntry entry) = some entry := by
  have hlines : lines (texts.encodeJournalEntry entry) = (records entry).map texts.recordLine := by
    rw [encodeJournalEntry_eq]
    apply lines_unlines
    · intro l hl
      obtain ⟨r, -, rfl⟩ := mem_map.1 hl
      exact texts.not_mem_recordLine (by decide) (by decide) (by decide) (by decide) r
    · intro l hl
      obtain ⟨r, -, rfl⟩ := mem_map.1 hl
      exact texts.not_mem_recordLine (by decide) (by decide) (by decide) (by decide) r
  have hrecords : ∀ rs : List (Record P N),
      (rs.map texts.recordLine).mapM (fun line => texts.parseRecord (line.splitOn ' ')) =
        some rs := by
    intro rs
    induction rs with
    | nil => rfl
    | cons r rs ih =>
      rw [map_cons, mapM_cons, parseRecord_recordLine, ih]
      rfl
  unfold parseJournalEntry
  rw [hlines, hrecords, Option.map_some, records]
  simp [filterMap_append, filterMap_map, Function.comp_def, Record.consumed?,
    Record.produced?, Record.graduated?]

end Texts

/-! ## The database mirrors the memory -/

/-- What is stored in the database. -/
inductive Key (P N : Type) where
  | graduated (id : Token P N)
  | snekInput (ref : OutputRef)
  | journal (txHash : ℕ)

namespace Key

variable (texts : Texts P N)

def text : Key P N → Text
  | graduated id => texts.graduatedPoolKey id
  | snekInput ref => texts.snekPoolInputKey ref
  | journal txHash => texts.journalKey txHash

theorem text_injective : Function.Injective (text texts) := by
  intro k k' h
  have hhead : (k.text texts).head? = (k'.text texts).head? := congrArg List.head? h
  cases k with
  | graduated id =>
    cases k' with
    | graduated id' =>
      have hparse := congrArg texts.parseToken (append_cancel_left h)
      rw [Texts.parseToken_tokenKeyValue, Texts.parseToken_tokenKeyValue] at hparse
      rw [Option.some.inj hparse]
    | snekInput => exact absurd (Option.some.inj hhead) (by decide)
    | journal => exact absurd (Option.some.inj hhead) (by decide)
  | snekInput ref =>
    cases k' with
    | graduated => exact absurd (Option.some.inj hhead) (by decide)
    | snekInput ref' =>
      have hparse := congrArg texts.parseOutputRef (append_cancel_left h)
      rw [Texts.parseOutputRef_outputRefText, Texts.parseOutputRef_outputRefText] at hparse
      rw [Option.some.inj hparse]
    | journal => exact absurd (Option.some.inj hhead) (by decide)
  | journal x =>
    cases k' with
    | graduated => exact absurd (Option.some.inj hhead) (by decide)
    | snekInput => exact absurd (Option.some.inj hhead) (by decide)
    | journal x' => rw [texts.hash.print_injective (append_cancel_left h)]

end Key

section Mirrors

variable [LinearOrder P] [LinearOrder N] {texts : Texts P N} {db : Database} {m : Memory P N}

/-- The value that the memory stands for under a key. -/
def Memory.lookup (texts : Texts P N) (m : Memory P N) : Key P N → Option Text
  | .graduated id => (m.graduated.get? id).map fun _ => []
  | .snekInput ref => (m.tracker.get? ref).map texts.tokenKeyValue
  | .journal txHash => (m.journal.get? txHash).map texts.encodeJournalEntry

/-- The database holds the memory and nothing else. -/
structure Mirrors (texts : Texts P N) (db : Database) (m : Memory P N) : Prop where
  get : ∀ k : Key P N, db.get? (k.text texts) = m.lookup texts k
  keys : ∀ key value, db.get? key = some value → ∃ k : Key P N, key = k.text texts

theorem mirrors_empty : Mirrors texts .empty (.empty : Memory P N) where
  get := fun k => by cases k <;> rfl
  keys := fun _ _ h => nomatch h

namespace Mirrors

section

variable (h : Mirrors texts db m)
include h

theorem change {db' : Database} {m' : Memory P N} (k : Key P N)
    (hdb : ∀ key, key ≠ k.text texts → db'.get? key = db.get? key)
    (hself : db'.get? (k.text texts) = m'.lookup texts k)
    (hother : ∀ k', k' ≠ k → m'.lookup texts k' = m.lookup texts k') : Mirrors texts db' m' where
  get := by
    intro k'
    by_cases hk : k' = k
    · rw [hk, hself]
    · rw [hdb _ fun ht => hk (Key.text_injective texts ht), h.get, hother k' hk]
  keys := by
    intro key v hget
    by_cases hkey : key = k.text texts
    · exact ⟨k, hkey⟩
    · exact h.keys key v (hdb key hkey ▸ hget)

theorem insertTracker (ref : OutputRef) (id : Token P N) :
    Mirrors texts (db.insert (texts.snekPoolInputKey ref) (texts.tokenKeyValue id))
      { m with tracker := m.tracker.insert ref id } := by
  refine h.change (.snekInput ref) (fun key hkey => ?_) ?_ fun k hk => ?_
  · exact (OrdMap.get?_insert ..).trans (if_neg hkey)
  · simp [Memory.lookup, Key.text]
  · cases k with
    | graduated => rfl
    | snekInput ref' =>
      have hne : ref' ≠ ref := fun hr => hk (hr ▸ rfl)
      simp [Memory.lookup, hne]
    | journal => rfl

theorem eraseTracker (ref : OutputRef) :
    Mirrors texts (db.erase (texts.snekPoolInputKey ref))
      { m with tracker := m.tracker.erase ref } := by
  refine h.change (.snekInput ref) (fun key hkey => ?_) ?_ fun k hk => ?_
  · exact (OrdMap.get?_erase ..).trans (if_neg hkey)
  · simp [Memory.lookup, Key.text]
  · cases k with
    | graduated => rfl
    | snekInput ref' =>
      have hne : ref' ≠ ref := fun hr => hk (hr ▸ rfl)
      simp [Memory.lookup, hne]
    | journal => rfl

theorem insertGraduated (id : Token P N) :
    Mirrors texts (db.insert (texts.graduatedPoolKey id) [])
      { m with graduated := m.graduated.insert id () } := by
  refine h.change (.graduated id) (fun key hkey => ?_) ?_ fun k hk => ?_
  · exact (OrdMap.get?_insert ..).trans (if_neg hkey)
  · simp [Memory.lookup, Key.text]
  · cases k with
    | graduated id' =>
      have hne : id' ≠ id := fun hi => hk (hi ▸ rfl)
      simp [Memory.lookup, hne]
    | snekInput => rfl
    | journal => rfl

theorem eraseGraduated (id : Token P N) :
    Mirrors texts (db.erase (texts.graduatedPoolKey id))
      { m with graduated := m.graduated.erase id } := by
  refine h.change (.graduated id) (fun key hkey => ?_) ?_ fun k hk => ?_
  · exact (OrdMap.get?_erase ..).trans (if_neg hkey)
  · simp [Memory.lookup, Key.text]
  · cases k with
    | graduated id' =>
      have hne : id' ≠ id := fun hi => hk (hi ▸ rfl)
      simp [Memory.lookup, hne]
    | snekInput => rfl
    | journal => rfl

section

variable (txHash : ℕ) (entry : GraduationJournalEntry P N)

theorem insertJournal :
    Mirrors texts (db.insert (texts.journalKey txHash) (texts.encodeJournalEntry entry))
      { m with journal := m.journal.insert txHash entry } := by
  refine h.change (.journal txHash) (fun key hkey => ?_) ?_ fun k hk => ?_
  · exact (OrdMap.get?_insert ..).trans (if_neg hkey)
  · simp [Memory.lookup, Key.text]
  · cases k with
    | graduated => rfl
    | snekInput => rfl
    | journal x =>
      have hne : x ≠ txHash := fun hx => hk (hx ▸ rfl)
      simp [Memory.lookup, hne]

theorem eraseJournal : Mirrors texts (db.erase (texts.journalKey txHash))
      { m with journal := m.journal.erase txHash } := by
  refine h.change (.journal txHash) (fun key hkey => ?_) ?_ fun k hk => ?_
  · exact (OrdMap.get?_erase ..).trans (if_neg hkey)
  · simp [Memory.lookup, Key.text]
  · cases k with
    | graduated => rfl
    | snekInput => rfl
    | journal x =>
      have hne : x ≠ txHash := fun hx => hk (hx ▸ rfl)
      simp [Memory.lookup, hne]

theorem persistObservation : Mirrors texts (persistObservation texts db txHash entry)
      (m.applyObservationEntry txHash entry) := by
  have hconsumed := foldl_rel (l := entry.consumedSnekRefs)
    (r := fun db t => Mirrors texts db { m with tracker := t }) h
    fun e _ _ _ ht => ht.eraseTracker e.1
  have hproduced := foldl_rel (l := entry.producedSnekRefs)
    (r := fun db t => Mirrors texts db { m with tracker := t }) hconsumed
    fun e _ _ _ ht => ht.insertTracker e.1 e.2
  have hgraduated := foldl_rel (l := entry.graduatedSplashIds)
    (r := fun db g => Mirrors texts db
      { m with
        graduated := g
        tracker := (m.applyObservationEntry txHash entry).tracker }) hproduced
    fun id _ _ _ ht => ht.insertGraduated id
  exact hgraduated.insertJournal txHash entry

theorem persistRollback :
    Mirrors texts (persistRollback texts db txHash entry) (m.rollbackEntry txHash entry) := by
  have hgraduated := foldl_rel (l := entry.graduatedSplashIds)
    (r := fun db g => Mirrors texts db { m with graduated := g }) h
    fun id _ _ _ ht => ht.eraseGraduated id
  have hproduced := foldl_rel (l := entry.producedSnekRefs)
    (r := fun db t => Mirrors texts db
      { m with
        graduated := (m.rollbackEntry txHash entry).graduated
        tracker := t }) hgraduated
    fun e _ _ _ ht => ht.eraseTracker e.1
  have hconsumed := foldl_rel (l := entry.consumedSnekRefs)
    (r := fun db t => Mirrors texts db
      { m with
        graduated := (m.rollbackEntry txHash entry).graduated
        tracker := t }) hproduced
    fun e _ _ _ ht => ht.insertTracker e.1 e.2
  exact hconsumed.eraseJournal txHash

end

end

end Mirrors

/-! ## Loading the database -/

theorem stripKey_append (start rest : Text) : stripKey start (start ++ rest) = some rest := by
  unfold stripKey
  rw [if_pos ( isPrefixOf_iff_prefix.2 (prefix_append start rest)), drop_left]

theorem eq_of_lookup (texts : Texts P N) {m m' : Memory P N}
    (h : ∀ k, m.lookup texts k = m'.lookup texts k) : m = m' := by
  have htoken : Function.Injective texts.tokenKeyValue := by
    intro id id' ht
    have hparse := congrArg texts.parseToken ht
    simpa using hparse
  have hentry : Function.Injective texts.encodeJournalEntry := by
    intro e e' ht
    have hparse := congrArg texts.parseJournalEntry ht
    rw [Texts.parseJournalEntry_encode, Texts.parseJournalEntry_encode] at hparse
    exact Option.some.inj hparse
  apply Memory.ext
  · apply ext_get?
    intro id
    have hid := h (.graduated id)
    unfold Memory.lookup at hid
    cases hm : m.graduated.get? id <;> cases hm' : m'.graduated.get? id <;> simp_all
  · apply ext_get?
    intro x
    exact Option.map_injective hentry (h (.journal x))
  · apply ext_get?
    intro ref
    exact Option.map_injective htoken (h (.snekInput ref))

theorem loadEntry_spec {m₀ : Memory P N} {k : Key P N} {value : Text}
    (h : m₀.lookup texts k = some value) (m : Memory P N) :
    ∃ m', loadEntry texts m (k.text texts, value) = some m' ∧ m'.lookup texts k = some value ∧
      ∀ k', k' ≠ k → m'.lookup texts k' = m.lookup texts k' := by
  cases k with
  | graduated id =>
    obtain ⟨-, -, rfl⟩ := Option.map_eq_some_iff.1 h
    refine ⟨{ m with graduated := m.graduated.insert id () }, ?_, ?_, fun k' hk => ?_⟩
    · have hstrip : stripKey graduatedPoolKeyPrefix (texts.graduatedPoolKey id) =
          some (texts.tokenKeyValue id) := stripKey_append _ _
      simp [loadEntry, Key.text, hstrip]
    · simp [Memory.lookup]
    · cases k' with
      | graduated id' =>
        have hne : id' ≠ id := fun hi => hk (hi ▸ rfl)
        simp [Memory.lookup, hne]
      | snekInput => rfl
      | journal => rfl
  | snekInput ref =>
    obtain ⟨id, -, rfl⟩ := Option.map_eq_some_iff.1 h
    refine ⟨{ m with tracker := m.tracker.insert ref id }, ?_, ?_, fun k' hk => ?_⟩
    · have hother : stripKey graduatedPoolKeyPrefix (texts.snekPoolInputKey ref) = none := rfl
      have hstrip : stripKey snekPoolInputKeyPrefix (texts.snekPoolInputKey ref) =
          some (texts.outputRefText ref) := stripKey_append _ _
      simp [loadEntry, Key.text, hother, hstrip]
    · simp [Memory.lookup]
    · cases k' with
      | graduated => rfl
      | snekInput ref' =>
        have hne : ref' ≠ ref := fun hr => hk (hr ▸ rfl)
        simp [Memory.lookup, hne]
      | journal => rfl
  | journal x =>
    obtain ⟨entry, -, rfl⟩ := Option.map_eq_some_iff.1 h
    refine ⟨{ m with journal := m.journal.insert x entry }, ?_, ?_, fun k' hk => ?_⟩
    · have hother : stripKey graduatedPoolKeyPrefix (texts.journalKey x) = none := rfl
      have hother' : stripKey snekPoolInputKeyPrefix (texts.journalKey x) = none := rfl
      have hstrip : stripKey journalKeyPrefix (texts.journalKey x) =
          some (texts.hash.print x) := stripKey_append _ _
      simp [loadEntry, Key.text, hother, hother', hstrip, texts.hash.parse_print,
        texts.parseJournalEntry_encode]
    · simp [Memory.lookup]
    · cases k' with
      | graduated => rfl
      | snekInput => rfl
      | journal x' =>
        have hne : x' ≠ x := fun hx => hk (hx ▸ rfl)
        simp [Memory.lookup, hne]

theorem foldlM_loadEntry {m₀ : Memory P N} {l : List (Text × Text)}
    (hl : ∀ e ∈ l, ∃ k : Key P N, e.1 = k.text texts ∧ m₀.lookup texts k = some e.2)
    (m : Memory P N) :
    ∃ m', l.foldlM (loadEntry texts) m = some m' ∧
      (∀ k : Key P N, (∃ v, (k.text texts, v) ∈ l) → m'.lookup texts k = m₀.lookup texts k) ∧
      ∀ k : Key P N, (¬ ∃ v, (k.text texts, v) ∈ l) → m'.lookup texts k = m.lookup texts k := by
  induction l generalizing m with
  | nil => exact ⟨m, rfl, fun _ ⟨_, h⟩ => (nomatch h), fun _ _ => rfl⟩
  | cons e l ih =>
    obtain ⟨⟨k, hkey, hk⟩, hl⟩ := forall_mem_cons.1 hl
    obtain ⟨m₁, hload, hself, hother⟩ := loadEntry_spec hk m
    obtain ⟨m', hrun, hin, hout⟩ := ih hl m₁
    have he : e = (k.text texts, e.2) := Prod.ext hkey rfl
    refine ⟨m', ?_, fun k' hk' => ?_, fun k' hk' => ?_⟩
    · rw [foldlM_cons, he, hload]
      exact hrun
    · by_cases hk'l : ∃ v, (k'.text texts, v) ∈ l
      · exact hin k' hk'l
      · obtain ⟨v, hv⟩ := hk'
        rcases mem_cons.1 hv with hv | hv
        · have hkk : k' = k := Key.text_injective texts ((congrArg Prod.fst hv).trans hkey)
          rw [hout k' hk'l, hkk, hself, hk]
        · exact absurd ⟨v, hv⟩ hk'l
    · have hne : k' ≠ k := by
        rintro rfl
        exact hk' ⟨e.2, he ▸ mem_cons_self⟩
      rw [hout k' fun ⟨v, hv⟩ => hk' ⟨v, mem_cons_of_mem _ hv⟩, hother k' hne]

/-- **A database that mirrors the memory is loaded as that memory.** -/
theorem loadState_of_mirrors (h : Mirrors texts db m) : loadState texts db = some m := by
  have hentries : ∀ e ∈ db.toList, ∃ k : Key P N, e.1 = k.text texts ∧
      m.lookup texts k = some e.2 := by
    intro e he
    have hget : db.get? e.1 = some e.2 := mem_toList_iff.1 he
    obtain ⟨k, hk⟩ := h.keys e.1 e.2 hget
    exact ⟨k, hk, (h.get k).symm.trans (hk ▸ hget)⟩
  obtain ⟨m', hrun, hin, hout⟩ := foldlM_loadEntry hentries .empty
  unfold loadState
  rw [hrun]
  congr 1
  apply eq_of_lookup texts
  intro k
  by_cases hk : ∃ v, (k.text texts, v) ∈ db.toList
  · exact hin k hk
  · have habsent : m.lookup texts k = none := by
      rw [← h.get k]
      cases hget : db.get? (k.text texts) with
      | none => rfl
      | some v => exact absurd ⟨v, mem_toList_iff.2 hget⟩ hk
    rw [hout k hk, habsent]
    cases k <;> rfl

end Mirrors

end Splash.EventSink.Graduation
