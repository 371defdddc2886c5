import Mathlib.Data.List.Perm.Basic
import SystemProgramming.QueueSignals
import SystemProgramming.TableBalance
import SystemProgramming.TableEffects

/-!
# What the midterm server starts with

`shmget` may return a segment that an earlier server has left behind, so
`init_shm` and `list_files` run on arbitrary content. `sem_init` writes into
the object that is laid over the first slots of the queue.
-/

set_option autoImplicit false

namespace CSE344.SegmentStart
open CString ProcessFiles TransitionRun TableCalls TableEffects
open ClientQueue (Segment maxClients isEmpty isFull mainStep enqueue)
open TableBalance (emptyDirectory)
open TableMachine (Entry asInt asInt_natCast maxFiles)

/-- The slots that a `sem_t` of 32 bytes covers. -/
def semSlots : ℤ := 8

structure ShmSegment where
  clients : Segment
  files : ℕ → Entry
  numFiles : ℤ

def ShmSegment.entries (m : ShmSegment) : List Entry :=
  (List.range m.numFiles.toNat).map m.files

/-- What the calls of `init_shm` return, the content of the segment, and what
`sem_init` writes over the slots. -/
structure Env where
  shmgetOk : Bool
  shmatOk : Bool
  semInitOk : Bool
  content : ShmSegment
  sem : ℤ → ℤ

def laid (sem queue : ℤ → ℤ) (i : ℤ) : ℤ := if 0 ≤ i ∧ i < semSlots then sem i else queue i

/-- The argument of `perror` if the server exits. -/
def initShm (env : Env) : Except String ShmSegment :=
  if env.shmgetOk = false then .error "shmget"
  else if env.shmatOk = false then .error "shmat"
  else if env.semInitOk = false then .error "sem_init"
  else
    let clients := env.content.clients
    .ok { env.content with clients := { clients with queue := laid env.sem clients.queue } }

section Listing

variable {Loc : Type*} (place : Bytes → Loc)

/-- `none` says that a store goes past the array. -/
def listFiles (cfg : Config place) (m : ShmSegment) : Option (State Loc × ShmSegment) :=
  let s := TableCalls.listFiles place { cfg with segment := m.files }
  if cfg.opendirOk then
    if s.numFiles ≤ maxFiles then
      some (s, { m with files := s.table, numFiles := s.numFiles })
    else none
  else some (s, m)

/-- The entries in use are those of the regular files of the directory: the
name, the size and a descriptor of each, and nobody uses it. -/
structure Described (cfg : Config place) (s : State Loc) (m : ShmSegment) : Prop where
  names : (m.entries.map Entry.name).Perm ((cfg.entries.filter (·.regular)).map Dirent.name)
  opened : ∀ e ∈ m.entries, 0 ≤ e.fd ∧ ∃ x c offset, cfg.disk.fileAt place e.name = some x ∧
    cfg.disk.contents x = some c ∧ e.size = c.length ∧
    lookup s.server e.fd.toNat = some (.file x offset)
  unused : ∀ e ∈ m.entries, e.readers = 0 ∧ e.writers = 0

/-- What the first `dequeue` returns has been enqueued. -/
def FirstEnqueued (s : ClientQueue.State) : Prop :=
  ∀ pid, s.served.head? = some pid ∨ (s.served = [] ∧ s.pc = .fork pid) → pid ∈ s.accepted

/-- The state in which the main loop is to start. -/
structure Established (cfg : Config place) (s : State Loc) (m : ShmSegment) : Prop where
  empty : m.clients.count = 0
  ends : m.clients.front = m.clients.rear
  range : 0 ≤ m.clients.front ∧ m.clients.front < maxClients
  described : Described place cfg s m
  first : ∀ as t, run ClientQueue.step as ⟨m.clients, .test, [], []⟩ = some t → FirstEnqueued t

/-- The queue that is left behind is empty. -/
structure Emptied (shm : Segment) : Prop where
  empty : shm.count = 0
  ends : shm.front = shm.rear
  range : 0 ≤ shm.front ∧ shm.front < maxClients

/-- There is room for the regular files, and each of them can be opened and is
smaller than 2 GiB. -/
structure Listable (cfg : Config place) : Prop where
  room : (cfg.entries.filter (·.regular)).length ≤ maxFiles
  opens : ∀ e ∈ cfg.entries, e.regular = true → e.openOk = true
  small : ∀ e ∈ cfg.entries, e.regular = true → ∀ x c, cfg.disk.fileAt place e.name = some x →
    cfg.disk.contents x = some c → c.length < 2^31

end Listing

section FirstDequeue

open ClientQueue (State Act step Pc)
open QueueSignals

/-- Nothing is taken out yet. -/
structure Before (s : State) : Prop where
  served : s.served = []
  ordered : Ordered s
  window : inWindow s = false
  tested : s.pc = .testAgain → 0 < s.shm.count
  early : ∀ pid, s.pc ≠ .fork pid

/-- The first PID is loaded, is stored as served or was. -/
def Reached (s : State) : Prop :=
  ∃ pid ∈ s.accepted, (∃ count, s.pc = .storeCount pid count ∧ s.served = []) ∨
    s.served.head? = some pid

theorem enqueue_frame (pid : ℤ) (s : State) : (enqueue pid s).pc = s.pc ∧
    (enqueue pid s).served = s.served ∧ s.shm.count ≤ (enqueue pid s).shm.count ∧
    ∀ p ∈ s.accepted, p ∈ (enqueue pid s).accepted := by
  unfold enqueue
  split_ifs
  · exact ⟨rfl, rfl, le_refl _, fun _ hp => hp⟩
  · exact ⟨rfl, rfl, by simp [ClientQueue.push], fun _ hp => List.mem_append_left _ hp⟩

theorem before_enqueue (pid : ℤ) {s : State} (h : Before s) : Before (enqueue pid s) := by
  obtain ⟨hpc, hserved, hcount, -⟩ := enqueue_frame pid s
  refine ⟨hserved.trans h.served, ?_, ?_, ?_, ?_⟩
  · exact ordered_step (.sigusr1 pid) s _ h.ordered (fun hw => by simp [h.window] at hw) rfl
  · unfold inWindow
    rw [hpc]
    exact h.window
  · rw [hpc]
    exact fun ht => lt_of_lt_of_le (h.tested ht) hcount
  · rw [hpc]
    exact h.early

theorem reached_enqueue (pid : ℤ) {s : State} (h : Reached s) : Reached (enqueue pid s) := by
  obtain ⟨hpc, hserved, -, hkeep⟩ := enqueue_frame pid s
  obtain ⟨p, hp, h⟩ := h
  refine ⟨p, hkeep p hp, ?_⟩
  rw [hpc, hserved]
  exact h

theorem before_main {s : State} (h : Before s) : Before (mainStep s) ∨ Reached (mainStep s) := by
  have hordered := ordered_main h.ordered
  obtain ⟨hserved, ho, hwindow, htested, hearly⟩ := h
  unfold mainStep at hordered ⊢
  cases hpc : s.pc with
  | test =>
    left
    simp only [hpc] at hordered ⊢
    cases hempty : isEmpty s.shm with
    | true =>
      rw [hempty] at hordered
      exact ⟨hserved, hordered, rfl, fun ht => (by cases ht), fun _ hf => (by cases hf)⟩
    | false =>
      rw [hempty] at hordered
      refine ⟨hserved, hordered, rfl, fun _ => ?_, fun _ hf => (by cases hf)⟩
      have hnonneg := ho.valid.count_nonneg
      have hne : s.shm.count ≠ 0 := by simpa [isEmpty] using hempty
      simp only [hand, hpc, List.length_nil] at hnonneg
      show 0 < s.shm.count
      omega
  | testAgain =>
    left
    have hpos := htested hpc
    have hempty : isEmpty s.shm = false := by
      rw [isEmpty]
      exact decide_eq_false (by omega)
    simp only [hpc, hempty] at hordered ⊢
    exact ⟨hserved, hordered, rfl, fun ht => (by cases ht), fun _ hf => (by cases hf)⟩
  | loadCount pid =>
    right
    refine ⟨pid, ?_, .inl ⟨_, rfl, hserved⟩⟩
    have horder := ho.order
    rw [hserved] at horder
    simp only [hand, hpc] at horder
    show pid ∈ s.accepted
    rw [horder]
    exact List.mem_cons_self
  | storeCount pid count =>
    rw [inWindow, hpc] at hwindow
    cases hwindow
  | fork pid => exact absurd hpc (hearly pid)
  | _ =>
    left
    simp only [hpc] at hordered
    exact ⟨hserved, hordered, rfl, fun ht => (by cases ht), fun _ hf => (by cases hf)⟩

theorem reached_main {s : State} (h : Reached s) : Reached (mainStep s) := by
  obtain ⟨pid, hmem, ⟨count, hpc, hserved⟩ | hhead⟩ := h
  · unfold mainStep
    rw [hpc]
    exact ⟨pid, hmem, .inr (by simp [hserved])⟩
  · refine ⟨pid, ?_, .inr ?_⟩ <;> unfold mainStep
    · cases s.pc <;> exact hmem
    · cases s.pc with
      | storeCount p count =>
        show (s.served ++ [p]).head? = some pid
        rw [List.head?_append, hhead]
        rfl
      | _ => exact hhead

theorem first_step (a : Act) (s t : State) (h : Before s ∨ Reached s) (hs : step a s = some t) :
    Before t ∨ Reached t := by
  cases a with
  | main =>
    cases hs
    exact h.elim before_main (fun h => .inr (reached_main h))
  | sigusr1 pid =>
    cases hs
    exact h.imp (before_enqueue pid) (reached_enqueue pid)

theorem first_enqueued {s : State} (h : Before s ∨ Reached s) : FirstEnqueued s := by
  intro pid hpid
  rcases h with h | ⟨p, hp, ⟨count, hpc, hserved⟩ | hhead⟩
  · rcases hpid with hhead | ⟨-, hpc⟩
    · rw [h.served] at hhead
      cases hhead
    · exact absurd hpc (h.early pid)
  · rcases hpid with hhead | ⟨-, hfork⟩
    · rw [hserved] at hhead
      cases hhead
    · rw [hpc] at hfork
      cases hfork
  · rcases hpid with hhead' | ⟨hserved, -⟩
    · rw [hhead] at hhead'
      cases hhead'
      exact hp
    · rw [hserved] at hhead
      cases hhead

theorem emptied_first {shm : Segment} (h : Emptied shm) (as : List Act) (t : State)
    (hrun : run step as ⟨shm, .test, [], []⟩ = some t) : FirstEnqueued t := by
  obtain ⟨cells, front, rear, count⟩ := shm
  obtain ⟨hempty, hends, hnonneg, hlt⟩ := h
  simp only at hempty hends hnonneg hlt
  subst hempty hends
  apply first_enqueued
  refine run_invariant step (fun s => Before s ∨ Reached s) first_step as _ t (.inl ?_) hrun
  refine ⟨rfl, ⟨by simp [maxClients], ?_, rfl, trivial⟩, rfl, nofun, nofun⟩
  exact ⟨hnonneg, hlt, le_refl _, by simp [maxClients], by
    show front = (front+(0-((0:ℕ):ℤ)))%maxClients
    rw [Int.emod_eq_of_lt] <;> omega⟩

end FirstDequeue

section Entries

variable {Loc : Type*} {place : Bytes → Loc}

theorem listEntry_entries (place : Bytes → Loc) (s : State Loc) (e : TableCalls.Dirent) : ∃ added,
    (listEntry place s e).entries = s.entries ++ added ∧
      (e.regular = true → e.openOk = false → ∃ a ∈ added, a.fd = -1) := by
  unfold listEntry
  split_ifs with hreg
  · cases hop : opened place e s with
    | none =>
      exact ⟨[_], entries_push s s.server s.disk _, fun _ _ => ⟨_, List.mem_singleton_self _, rfl⟩⟩
    | some p =>
      obtain ⟨x, c⟩ := p
      refine ⟨[_], entries_push s (install s.server (.file x c.length)) s.disk _, fun _ hno => ?_⟩
      simp [opened, hno] at hop
  · exact ⟨[], (List.append_nil _).symm, fun h => absurd h hreg⟩

theorem refused_loop (es : List TableCalls.Dirent) (s : State Loc)
    (h : (∃ a ∈ s.entries, a.fd = -1) ∨ ∃ e ∈ es, e.regular = true ∧ e.openOk = false) :
    ∃ a ∈ (es.foldl (listEntry place) s).entries, a.fd = -1 := by
  induction es generalizing s with
  | nil => exact h.resolve_right (fun ⟨e, he, _⟩ => absurd he List.not_mem_nil)
  | cons e es ih =>
    obtain ⟨added, hentries, hadded⟩ := listEntry_entries place s e
    apply ih
    rw [hentries]
    rcases h with ⟨a, ha, hfd⟩ | ⟨e', he', hreg, hno⟩
    · exact .inl ⟨a, List.mem_append_left _ ha, hfd⟩
    · rcases List.mem_cons.mp he' with rfl | he'
      · obtain ⟨a, ha, hfd⟩ := hadded hreg hno
        exact .inl ⟨a, List.mem_append_right _ ha, hfd⟩
      · exact .inr ⟨e', he', hreg, hno⟩

theorem refused_listed (cfg : Config place) (hok : cfg.opendirOk = true) {e : TableCalls.Dirent}
    (he : e ∈ cfg.entries) (hreg : e.regular = true) (hno : e.openOk = false) :
    ∃ a ∈ (TableCalls.listFiles place cfg).entries, a.fd = -1 := by
  unfold TableCalls.listFiles
  rw [if_pos hok]
  exact refused_loop cfg.entries _ (.inr ⟨e, he, hreg, hno⟩)

end Entries

section Described

variable {Loc : Type*} {place : Bytes → Loc} {cfg : Config place}

theorem listed_entries (s : State Loc) (m : ShmSegment) :
    ShmSegment.entries { m with files := s.table, numFiles := s.numFiles } = s.entries := by
  rw [ShmSegment.entries, State.entries, Int.toNat_natCast]

theorem opened_listed {s : State Loc} {e : Entry} (h : Listed place s e) (hfd : 0 ≤ e.fd) :
    ∃ x c, s.disk.fileAt place e.name = some x ∧ s.disk.contents x = some c ∧
      e.size = asInt c.length ∧ lookup s.server e.fd.toNat = some (.file x c.length) := by
  rcases h with ⟨hneg, -⟩ | ⟨x, c, -, hopen, hplace, hc, hsize⟩
  · omega
  · exact ⟨x, c, hplace, hc, hsize, hopen⟩

theorem described_listable (hok : cfg.opendirOk = true) {s : State Loc} {m : ShmSegment}
    {files : ℕ → Entry} (hs : s = TableCalls.listFiles place { cfg with segment := files })
    (hm : m.entries = s.entries)
    (hroom : s.numFiles ≤ maxFiles) (h : Described place cfg s m) : Listable place cfg := by
  obtain ⟨hdisk, hnames, -, hlisted, -⟩ := listFiles_listing { cfg with segment := files }
  rw [← hs] at hdisk hnames hlisted
  rw [if_pos hok] at hnames
  have hfd {a : Entry} (ha : a ∈ s.entries) : 0 ≤ a.fd :=
    (h.opened a (hm ▸ ha)).1
  refine ⟨?_, fun e he hreg => ?_, fun e he hreg x c hplace hc => ?_⟩
  · have hcount := congrArg List.length hnames
    rw [List.length_map, List.length_map, entries_length] at hcount
    exact hcount.symm.trans_le hroom
  · by_contra hno
    obtain ⟨a, ha, hneg⟩ := refused_listed { cfg with segment := files } hok he hreg
      (by simpa using hno)
    rw [← hs] at ha
    have := hfd ha
    omega
  · have hmem : e.name ∈ s.entries.map Entry.name := by
      rw [hnames]
      exact List.mem_map_of_mem (List.mem_filter.mpr ⟨he, hreg⟩)
    obtain ⟨a, ha, hname⟩ := List.mem_map.mp hmem
    obtain ⟨y, c', hplace', hc', hsize, -⟩ := opened_listed (hlisted a ha).1 (hfd ha)
    rw [hdisk, hname, hplace] at hplace'
    cases hplace'
    rw [hdisk, hc] at hc'
    cases hc'
    obtain ⟨-, z, c', -, hplace', hc', hlength, -⟩ := h.opened a (hm ▸ ha)
    rw [hname, hplace, Option.some.injEq] at hplace'
    subst hplace'
    rw [hc] at hc'
    cases hc'
    exact asInt_natCast.mp (hsize.symm.trans hlength)

theorem listable_described (hok : cfg.opendirOk = true) {s : State Loc} {m : ShmSegment}
    {files : ℕ → Entry} (hs : s = TableCalls.listFiles place { cfg with segment := files })
    (hm : m.entries = s.entries)
    (h : Listable place cfg) : Described place cfg s m := by
  obtain ⟨hdisk, hnames, -, hlisted, hopened⟩ := listFiles_listing { cfg with segment := files }
  rw [← hs] at hdisk hnames hlisted hopened
  rw [if_pos hok] at hnames
  refine ⟨?_, fun e he => ?_, fun e he => ?_⟩
  · rw [hm, ← hnames]
  · rw [hm] at he
    have hfd := hopened h.opens e he
    obtain ⟨x, c, hplace, hc, hsize, hopen⟩ := opened_listed (hlisted e he).1 hfd
    have hmem : e.name ∈ s.entries.map Entry.name := List.mem_map_of_mem he
    rw [hnames] at hmem
    obtain ⟨d, hd, hname⟩ := List.mem_map.mp hmem
    obtain ⟨hd, hreg⟩ := List.mem_filter.mp hd
    rw [hdisk] at hplace hc
    have hsmall := h.small d hd hreg x c (hname ▸ hplace) hc
    exact ⟨hfd, x, c, c.length, hplace, hc, hsize.trans (asInt_natCast.mpr hsmall), hopen⟩
  · rw [hm] at he
    exact (hlisted e he).2

/-- `list_files` describes a directory that it can read if that is listable. -/
theorem described_iff (hok : cfg.opendirOk = true) (m : ShmSegment) :
    (∃ s t, listFiles place cfg m = some (s, t) ∧ Described place cfg s t) ↔
      Listable place cfg := by
  let cfg' : Config place := { cfg with segment := m.files }
  have hcount : (TableCalls.listFiles place cfg').numFiles =
      (cfg.entries.filter (·.regular)).length := by
    have hnames := congrArg List.length (listFiles_listing cfg').2.1
    rw [List.length_map, entries_length, if_pos hok, List.length_map] at hnames
    exact hnames
  unfold listFiles
  rw [if_pos hok]
  constructor
  · rintro ⟨s, t, h, hd⟩
    obtain ⟨hroom, h⟩ := Option.ite_none_right_eq_some.mp h
    cases h
    exact described_listable hok rfl (listed_entries _ _) hroom hd
  · intro h
    refine ⟨_, _, if_pos (hcount.trans_le h.room), ?_⟩
    exact listable_described hok rfl (listed_entries _ _) h

theorem described_stale (hno : cfg.opendirOk = false) (m : ShmSegment) :
    (∃ s t, listFiles place cfg m = some (s, t) ∧ Described place cfg s t) ↔
      m.numFiles ≤ 0 ∧ ∀ e ∈ cfg.entries, e.regular = false := by
  unfold listFiles
  rw [if_neg (by simp [hno])]
  constructor
  · rintro ⟨s, t, h, hd⟩
    cases h
    have hnil : m.entries = [] := by
      by_contra hne
      obtain ⟨e, he⟩ := List.exists_mem_of_ne_nil _ hne
      obtain ⟨-, x, c, offset, -, -, -, hopen⟩ := hd.opened e he
      unfold TableCalls.listFiles at hopen
      rw [if_neg (by simp [hno])] at hopen
      exact no_inherited_file cfg.inherited e.fd.toNat hopen
    have hnames := hd.names.length_eq
    rw [hnil] at hnames
    constructor
    · have hlen := congrArg List.length hnil
      simp [ShmSegment.entries] at hlen
      omega
    · have hfilter : cfg.entries.filter (·.regular) = [] := by simpa using hnames.symm
      simpa using hfilter
  · rintro ⟨hle, hregular⟩
    have hnil : m.entries = [] := by simp [ShmSegment.entries, hle]
    have hfilter : cfg.entries.filter (·.regular) = [] := by simpa using hregular
    refine ⟨_, _, rfl, ?_, ?_, ?_⟩
    · rw [hnil, hfilter]
      exact List.Perm.nil
    · rw [hnil]
      exact fun e he => absurd he List.not_mem_nil
    · rw [hnil]
      exact fun e he => absurd he List.not_mem_nil

theorem initShm_ok {env : Env} {m : ShmSegment} (h : initShm env = .ok m) :
    m.clients.front = env.content.clients.front ∧ m.clients.rear = env.content.clients.rear ∧
      m.clients.count = env.content.clients.count ∧ m.numFiles = env.content.numFiles := by
  unfold initShm at h
  split_ifs at h
  cases h
  exact ⟨rfl, rfl, rfl, rfl⟩

theorem listFiles_clients {m t : ShmSegment} {s : State Loc}
    (h : listFiles place cfg m = some (s, t)) : t.clients = m.clients := by
  unfold listFiles at h
  dsimp only at h
  split_ifs at h <;> cases h <;> rfl

/-- The main loop starts well if and only if the queue that was left behind is
empty, and the directory can be listed, or cannot be read and nothing is there
to be listed. -/
theorem established_iff (env : Env) (cfg : Config place) (m : ShmSegment)
    (h : initShm env = .ok m) :
    (∃ s t, listFiles place cfg m = some (s, t) ∧ Established place cfg s t) ↔
      Emptied env.content.clients ∧ (cfg.opendirOk = true → Listable place cfg) ∧
        (cfg.opendirOk = false →
          env.content.numFiles ≤ 0 ∧ ∀ e ∈ cfg.entries, e.regular = false) := by
  obtain ⟨hfront, hrear, hcount, hnum⟩ := initShm_ok h
  have hdirectory : (∃ s t, listFiles place cfg m = some (s, t) ∧ Described place cfg s t) ↔
      (cfg.opendirOk = true → Listable place cfg) ∧ (cfg.opendirOk = false →
        env.content.numFiles ≤ 0 ∧ ∀ e ∈ cfg.entries, e.regular = false) := by
    cases hok : cfg.opendirOk with
    | true => simpa using described_iff hok m
    | false => simpa [hnum] using described_stale hok m
  rw [← hdirectory]
  constructor
  · rintro ⟨s, t, hlist, he⟩
    have hclients := listFiles_clients hlist
    obtain ⟨hempty, hends, hrange, hdescribed, -⟩ := he
    rw [hclients] at hempty hends hrange
    refine ⟨⟨?_, ?_, ?_⟩, s, t, hlist, hdescribed⟩
    · rw [← hcount, hempty]
    · rw [← hfront, hends, hrear]
    · rw [← hfront]
      exact hrange
  · rintro ⟨hold, s, t, hlist, hdescribed⟩
    have hclients := listFiles_clients hlist
    have hnew : Emptied t.clients := by
      rw [hclients]
      exact ⟨hcount.trans hold.empty, by rw [hfront, hrear, hold.ends], by
        rw [hfront]
        exact hold.range⟩
    exact ⟨s, t, hlist, hnew.empty, hnew.ends, hnew.range, hdescribed, emptied_first hnew⟩

end Described

/-- All calls succeed, and nothing but the queue was left behind. -/
def leftBehind (clients : Segment) : Env where
  shmgetOk := true
  shmatOk := true
  semInitOk := true
  content := ⟨clients, fun _ => ⟨[], 0, 0, 0, 0⟩, 0⟩
  sem _ := 0

/-- A new segment is filled with zeros. -/
theorem established_iff_new : ∃ m, initShm (leftBehind ⟨fun _ => 0, 0, 0, 0⟩) = .ok m ∧
    ∃ s t, listFiles id emptyDirectory m = some (s, t) ∧ Established id emptyDirectory s t := by
  refine ⟨_, rfl, (established_iff (leftBehind ⟨fun _ => 0, 0, 0, 0⟩) emptyDirectory _ rfl).mpr ?_⟩
  exact ⟨⟨rfl, rfl, le_refl _, by decide⟩, fun _ => ⟨by decide, nofun, nofun⟩, nofun⟩

/-- One client of an earlier server is still in the queue, behind the semaphore. -/
def stale : Segment := ⟨fun _ => 4242, 8, 9, 1⟩

theorem stale_client_served : ∃ m s t, initShm (leftBehind stale) = .ok m ∧
    listFiles id emptyDirectory m = some (s, t) ∧ ¬ Established id emptyDirectory s t ∧
    ∃ u, run ClientQueue.step (List.replicate 8 .main) ⟨t.clients, .test, [], []⟩ = some u ∧
      u.served = [4242] ∧ u.accepted = [] :=
  ⟨_, _, _, rfl, rfl, fun h => absurd h.empty (by decide), _, rfl, rfl, rfl⟩

end CSE344.SegmentStart
