import CodexTeams.PatchParser

/-! The batch parser as a machine over single lines: what the slice parser decides by look-ahead,
the machine decides when it meets the next line. -/
namespace PatchLineMachine

open RustStr PatchParser List Option

inductive Body where
  | header
  | unopened
  | opened (chunks : List UpdateFileChunk) (chunk : UpdateFileChunk)
  | inside (chunks : List UpdateFileChunk) (chunk : UpdateFileChunk)
  | closed (chunks : List UpdateFileChunk)
  deriving Repr

inductive Cursor where
  | started
  | add (done : List Hunk) (path contents : Str)
  | delete (done : List Hunk) (path : Str)
  | update (done : List Hunk) (path : Str) (movePath : Option Str) (body : Body)
  deriving Repr

def Body.chunks : Body → List UpdateFileChunk
  | .header | .unopened => []
  | .opened chunks chunk | .inside chunks chunk => chunks ++ [chunk]
  | .closed chunks => chunks

def Cursor.hunks : Cursor → List Hunk
  | .started => []
  | .add done path contents => done ++ [.addFile path contents]
  | .delete done path => done ++ [.deleteFile path]
  | .update done path movePath body => done ++ [.updateFile path movePath body.chunks]

/-- The hunk section may end here: no update hunk is without a chunk, no chunk without a line. -/
def Cursor.Complete : Cursor → Prop
  | .started | .add .. | .delete .. => True
  | .update _ _ _ (.inside ..) | .update _ _ _ (.closed ..) => True
  | .update .. => False

variable (done : List Hunk)

def openHunk (trimmed : Str) : Option Cursor :=
  match stripPrefix trimmed addFileMarker with
  | some path => some (.add done path [])
  | none =>
    match stripPrefix trimmed deleteFileMarker with
    | some path => some (.delete done path)
    | none =>
      match stripPrefix trimmed updateFileMarker with
      | some path => some (.update done path none .header)
      | none => none

theorem openHunk_eq_some {done trimmed c} : openHunk done trimmed = some c ↔ ∃ path,
    trimmed = addFileMarker ++ path ∧ c = .add done path [] ∨
      trimmed = deleteFileMarker ++ path ∧ c = .delete done path ∨
      trimmed = updateFileMarker ++ path ∧ c = .update done path none .header := by
  constructor
  · intro h
    rw [openHunk] at h
    split at h
    · next p hp => exact ⟨p, .inl ⟨stripPrefix_eq_some.mp hp, (some.inj h).symm⟩⟩
    split at h
    · next p hp => exact ⟨p, .inr (.inl ⟨stripPrefix_eq_some.mp hp, (some.inj h).symm⟩)⟩
    split at h
    · next p hp => exact ⟨p, .inr (.inr ⟨stripPrefix_eq_some.mp hp, (some.inj h).symm⟩)⟩
    · cases h
  · rintro ⟨p, ⟨rfl, rfl⟩ | ⟨rfl, rfl⟩ | ⟨rfl, rfl⟩⟩ <;> rfl

def chunkStep (path : Str) (movePath : Option Str)
    (chunks : List UpdateFileChunk) (line : Str) : Option Cursor :=
  if trim line = [] then
    some (.update done path movePath (if chunks.isEmpty then .unopened else .closed chunks))
  else if line.head? = some '*' then
    if chunks.isEmpty then none
    else openHunk (done ++ [.updateFile path movePath chunks]) (trim line)
  else if line = emptyChangeContextMarker then
    some (.update done path movePath (.opened chunks (.empty none)))
  else
    match stripPrefix line changeContextMarker with
    | some context => some (.update done path movePath (.opened chunks (.empty (some context))))
    | none =>
      if chunks.isEmpty then
        ((UpdateFileChunk.empty none).pushLine line).map
          fun chunk => .update done path movePath (.inside [] chunk)
      else none

def step : Cursor → Str → Option Cursor
  | .started, line => openHunk [] (trim line)
  | .add done path contents, line =>
    match stripPrefix line ['+'] with
    | some text => some (.add done path (contents ++ text ++ ['\n']))
    | none => openHunk (done ++ [.addFile path contents]) (trim line)
  | .delete done path, line => openHunk (done ++ [.deleteFile path]) (trim line)
  | .update done path movePath .header, line =>
    match stripPrefix line moveToMarker with
    | some dest => some (.update done path (some dest) .unopened)
    | none => chunkStep done path movePath [] line
  | .update done path movePath .unopened, line => chunkStep done path movePath [] line
  | .update done path movePath (.opened chunks chunk), line =>
    (chunk.pushLine line).map fun chunk' => .update done path movePath (.inside chunks chunk')
  | .update done path movePath (.inside chunks chunk), line =>
    if line = eofMarker then
      some (.update done path movePath (.closed (chunks ++ [{ chunk with isEndOfFile := true }])))
    else
      match chunk.pushLine line with
      | some chunk' => some (.update done path movePath (.inside chunks chunk'))
      | none => chunkStep done path movePath (chunks ++ [chunk]) line
  | .update done path movePath (.closed chunks), line => chunkStep done path movePath chunks line

def run : Cursor → List Str → Option Cursor
  | c, [] => some c
  | c, line :: rest => (step c line).bind (run · rest)

/-- The machine stands at the end of a chunk list: the next line meets no open chunk. -/
structure AtChunkEnd (done : List Hunk) (path : Str) (movePath : Option Str)
    (chunks : List UpdateFileChunk) (rest : List Str) (c : Cursor) : Prop where
  hunks : c.hunks = done ++ [.updateFile path movePath chunks]
  complete : chunks ≠ [] → c.Complete
  next : ∀ line ∈ rest.head?, step c line = chunkStep done path movePath chunks line

theorem parseChunkLines_inside (done path movePath chunks) :
    ∀ {ls n chunk chunk' n'}, parseChunkLines ln (n + 1) chunk ls = .ok (chunk', n') →
    ∃ c, run (.update done path movePath (.inside chunks chunk)) ls =
        run c (ls.drop (n' - (n + 1))) ∧
      AtChunkEnd done path movePath (chunks ++ [chunk']) (ls.drop (n' - (n + 1))) c := by
  intro ls
  induction ls with intro n chunk chunk' n' h
  | nil =>
    obtain ⟨rfl, rfl⟩ := h
    refine ⟨.update done path movePath (.inside chunks chunk), by simp, rfl, ?_, by simp⟩
    exact fun _ => trivial
  | cons l ls ih =>
    rw [parseChunkLines] at h
    split at h
    · next hl =>
      cases h
      refine ⟨.update done path movePath (.closed (chunks ++ [{ chunk with isEndOfFile := true }])),
        by simp [run, step, hl], rfl, fun _ => trivial, fun _ _ => rfl⟩
    · next hl =>
      split at h
      · next chunk₁ hp =>
        have hle := parseChunkLines_le h
        obtain ⟨c, hr, hc⟩ := ih h
        have hn : n' - (n + 1) = (n' - (n + 1 + 1)) + 1 := by omega
        rw [hn]
        refine ⟨c, ?_, hc⟩
        simp only [run, step, hl, hp]
        exact hr
      · next hp =>
        cases h
        rw [Nat.sub_self]
        refine ⟨.update done path movePath (.inside chunks chunk), rfl, rfl, fun _ => trivial, ?_⟩
        intro li hln
        simp only [drop_zero, List.head?_cons, mem_def, some.injEq] at hln
        subst hln
        simp [step, hl, hp]

theorem parseChunkLines_first (done path movePath chunks)
    (h : parseChunkLines ln 0 ch (l :: ls) = .ok (ch', n')) :
    ∃ ch₁ c, ch.pushLine l = some ch₁ ∧
      run (.update done path movePath (.inside chunks ch₁)) ls = run c (ls.drop (n' - 1)) ∧
      AtChunkEnd done path movePath (chunks ++ [ch']) (ls.drop (n' - 1)) c := by
  rw [parseChunkLines] at h
  split at h
  · simp at h
  · split at h
    · next ch₁ hp =>
      obtain ⟨c, hr, hc⟩ := parseChunkLines_inside done path movePath chunks h
      exact ⟨ch₁, c, hp, hr, hc⟩
    · simp at h

theorem parseChunkLines_opened (done path movePath chunks)
    (h : parseChunkLines ln 0 chunk (l :: ls) = .ok (chunk', n')) :
    ∃ c, run (.update done path movePath (.opened chunks chunk)) (l :: ls) =
        run c ((l :: ls).drop n') ∧
      AtChunkEnd done path movePath (chunks ++ [chunk']) ((l :: ls).drop n') c := by
  have hps := parseChunkLines_pos h
  obtain ⟨chunk₁, c, hp, hr, hc⟩ := parseChunkLines_first done path movePath chunks h
  obtain ⟨m, rfl⟩ : ∃ m, n' = m + 1 := ⟨n' - 1, by omega⟩
  refine ⟨c, ?_, hc⟩
  simp only [run, step, hp]
  exact hr

theorem parseUpdateFileChunk_run {done path movePath chunks l ls chunk n c}
    (hb : trim l ≠ []) (hs : l.head? ≠ some '*')
    (h : parseUpdateFileChunk (l :: ls) ln chunks.isEmpty = .ok (chunk, n))
    (hc : AtChunkEnd done path movePath chunks (l :: ls) c) :
    ∃ c', run c (l :: ls) = run c' ((l :: ls).drop n) ∧
      AtChunkEnd done path movePath (chunks ++ [chunk]) ((l :: ls).drop n) c' := by
  have hsp := hc.next l rfl
  simp only [chunkStep, hb, hs] at hsp
  simp only [parseUpdateFileChunk] at h
  split at h
  · cases h
  next ctx start hsr =>
  split at h
  · cases h
  next hl =>
  split at h
  · cases h
  next chunk' p hp =>
  cases h
  unfold chunkStart at hsr
  have o : ∀ ctx, start = 1 →
      step c l = some (.update done path movePath (.opened chunks (.empty ctx))) →
      parseChunkLines ln 0 (.empty ctx) ((l :: ls).drop start) = .ok (chunk, p) →
      ∃ c', run c (l :: ls) = run c' ((l :: ls).drop (p + start)) ∧
        AtChunkEnd done path movePath (chunks ++ [chunk]) ((l :: ls).drop (p + start)) c' := by
    intro ctx hst hst' hp
    subst hst
    cases ls with
    | nil => simp at hl
    | cons l₂ ls =>
      obtain ⟨c', hr, hc'⟩ := parseChunkLines_opened done path movePath chunks hp
      refine ⟨c', ?_, hc'⟩
      simp only [run, hst']
      exact hr
  split at hsr
  · next he =>
    cases hsr
    rw [if_pos he] at hsp
    exact o _ rfl hsp hp
  · next he =>
    rw [if_neg he] at hsp
    split at hsr
    · next cn hct =>
      cases hsr
      simp only [hct] at hsp
      exact o _ rfl hsp hp
    · next hct =>
      split at hsr
      · next hem =>
        cases hsr
        simp only [hct] at hsp
        have hn : chunks = [] := isEmpty_iff.mp hem
        subst hn
        have hpo := parseChunkLines_pos hp
        obtain ⟨chunk₁, c', hps, hr, hc'⟩ := parseChunkLines_first done path movePath [] hp
        obtain ⟨m, rfl⟩ : ∃ m, p = m + 1 := ⟨p - 1, by omega⟩
        refine ⟨c', ?_, hc'⟩
        rw [hps, map_some] at hsp
        simp only [run, hsp]
        exact hr
      · cases hsr

theorem parseChunks_run {done path movePath n parsed chunks chunks' ls c}
    (h : parseChunks ln parsed chunks ls = .ok (chunks', n))
    (hc : AtChunkEnd done path movePath chunks ls c) :
    ∃ c', run c ls = run c' (ls.drop (n - parsed)) ∧
      AtChunkEnd done path movePath chunks' (ls.drop (n - parsed)) c' ∧
      ∀ l ∈ (ls.drop (n - parsed)).head?, trim l ≠ [] ∧ l.head? = some '*' := by
  induction parsed, chunks, ls using parseChunks.induct ln generalizing c with
  | case1 =>
    simp only [parseChunks] at h
    obtain ⟨rfl, rfl⟩ := h
    exact ⟨c, by simp, by simpa using hc, by simp⟩
  | case2 parsed chunks l r hb ih =>
    rw [parseChunks, if_pos hb] at h
    have hle := parseChunks_le h
    have hsp := hc.next l rfl
    rw [chunkStep, if_pos hb] at hsp
    have hc₁ : AtChunkEnd done path movePath chunks r
        (.update done path movePath (if chunks.isEmpty then .unopened else .closed chunks)) := by
      cases chunks with
      | nil => exact ⟨rfl, absurd rfl, fun _ _ => rfl⟩
      | cons chunk chunks => exact ⟨rfl, fun _ => trivial, fun _ _ => rfl⟩
    obtain ⟨c', hr, hc', hst⟩ := ih h hc₁
    have hn : n - parsed = (n - (parsed + 1)) + 1 := by simp only at hle; omega
    rw [hn]
    refine ⟨c', ?_, hc', hst⟩
    simp only [run, hsp]
    exact hr
  | case3 parsed chunks l r hb hs =>
    rw [parseChunks, if_neg hb, if_pos hs] at h
    cases h
    simp only [Nat.sub_self]
    refine ⟨c, rfl, hc, fun l' hl => ?_⟩
    cases hl
    exact ⟨hb, hs⟩
  | case4 parsed chunks l r hb hs e he =>
    rw [parseChunks, if_neg hb, if_neg hs] at h
    split at h
    · cases h
    · next he' => rw [he] at he'; cases he'
  | case5 parsed chunks l r hb hs chunk k he _ ih =>
    rw [parseChunks_chunk hb hs he] at h
    have hle := parseChunks_le h
    obtain ⟨c₁, hr₁, hc₁⟩ := parseUpdateFileChunk_run hb hs he hc
    obtain ⟨c', hr, hc', hst⟩ := ih h hc₁
    have hn : n - parsed = k + (n - (parsed + k)) := by simp only at hle; omega
    rw [hn, ← drop_drop]
    exact ⟨c', hr₁.trans hr, hc', hst⟩

/-- The machine stands at the end of a hunk: the next line must open another one. -/
structure AtHunkEnd (done : List Hunk) (rest : List Str) (c : Cursor) : Prop where
  hunks : c.hunks = done
  complete : c.Complete
  next : ∀ line ∈ rest.head?, step c line = openHunk done (trim line)

theorem parseAddLines_run (done path) (ls : List Str) (cs : Str) :
    ∃ c, run (.add done path cs) ls = run c (ls.drop (parseAddLines ls).2) ∧
      AtHunkEnd (done ++ [.addFile path (cs ++ (parseAddLines ls).1)])
        (ls.drop (parseAddLines ls).2) c := by
  induction ls generalizing cs with
  | nil =>
    exact ⟨.add done path cs, rfl, by simp [parseAddLines, Cursor.hunks], trivial, by simp⟩
  | cons ln rs ih =>
    by_cases hp : ∃ text, ln = '+' :: text
    · obtain ⟨text, rfl⟩ := hp
      obtain ⟨c, hr, hc⟩ := ih (cs ++ text ++ ['\n'])
      refine ⟨c, ?_, by simpa [parseAddLines] using hc⟩
      exact hr
    · have hn : parseAddLines (ln :: rs) = ([], 0) := by
        rw [parseAddLines]
        exact fun text _ hl => hp ⟨text, (List.cons.inj hl).1⟩
      rw [hn]
      refine ⟨.add done path cs, rfl, by simp [Cursor.hunks], trivial, fun l hl => ?_⟩
      obtain rfl : ln = l := by simpa using hl
      have hs : stripPrefix ln ['+'] = none := stripPrefix_eq_none.mpr fun r hr => hp ⟨r, hr⟩
      simp [step, hs]

theorem parseChunks_hunkEnd {done path movePath n parsed chunks ls c}
    (h : parseChunks ln parsed [] ls = .ok (chunks, n)) (hne : ¬chunks.isEmpty)
    (hc : AtChunkEnd done path movePath [] ls c) :
    ∃ c', run c ls = run c' (ls.drop (n - parsed)) ∧
      AtHunkEnd (done ++ [.updateFile path movePath chunks]) (ls.drop (n - parsed)) c' := by
  obtain ⟨c', hr, hc', hst⟩ := parseChunks_run h hc
  refine ⟨c', hr, hc'.hunks, hc'.complete (by simpa using hne), fun l hl => ?_⟩
  obtain ⟨hb, hs⟩ := hst l hl
  rw [hc'.next l hl, chunkStep, if_neg hb, if_pos hs, if_neg hne]

theorem parseOneHunk_run {done hunk c} (h : parseOneHunk first r ln = .ok (hunk, n))
    (hc : step c first = openHunk done (trim first)) :
    ∃ c', run c (first :: r) = run c' ((first :: r).drop n) ∧
      AtHunkEnd (done ++ [hunk]) ((first :: r).drop n) c' := by
  simp only [parseOneHunk] at h
  rw [openHunk] at hc
  split at h
  · next p hp =>
    cases h
    simp only [hp] at hc
    obtain ⟨c', hr, hc'⟩ := parseAddLines_run done p r []
    rw [Nat.add_comm]
    refine ⟨c', ?_, by simpa using hc'⟩
    simp only [run, hc]
    exact hr
  next ha =>
  simp only [ha] at hc
  split at h
  · next p hp =>
    cases h
    simp only [hp] at hc
    exact ⟨.delete done p, by simp [run, hc], rfl, trivial, fun _ _ => rfl⟩
  next hd =>
  simp only [hd] at hc
  split at h
  · next p hp =>
    simp only [hp] at hc
    split at h
    · cases h
    next chunks pr hch =>
    split at h
    · cases h
    next hne =>
    cases h
    have hle := parseChunks_le hch
    cases hm : r.head?.bind (stripPrefix · moveToMarker) with
    | none =>
      simp only [hm] at hch hle ⊢
      have he : AtChunkEnd done p none [] r (.update done p none .header) := by
        refine ⟨rfl, absurd rfl, fun l hl => ?_⟩
        have hs : stripPrefix l moveToMarker = none := by
          rw [mem_def.mp hl] at hm
          exact hm
        simp [step, hs]
      obtain ⟨c', hr, hc'⟩ := parseChunks_hunkEnd hch hne he
      obtain ⟨m, rfl⟩ : ∃ m, n = m + 1 := ⟨n - 1, by omega⟩
      refine ⟨c', ?_, hc'⟩
      simp only [run, hc]
      exact hr
    | some d =>
      simp only [hm, isSome_some, if_true] at hch hle ⊢
      obtain ⟨l, hl, hds⟩ := bind_eq_some_iff.mp hm
      obtain ⟨r, rfl⟩ := List.head?_eq_some_iff.mp hl
      have he : AtChunkEnd done p (some d) [] r (.update done p (some d) .unopened) :=
        ⟨rfl, absurd rfl, fun _ _ => rfl⟩
      obtain ⟨c', hr, hc'⟩ := parseChunks_hunkEnd hch hne he
      obtain ⟨m, rfl⟩ : ∃ m, n = m + 2 := ⟨n - 2, by omega⟩
      refine ⟨c', ?_, hc'⟩
      have hmv : step (.update done p none .header) l =
          some (.update done p (some d) .unopened) := by
        simp [step, hds]
      simp only [run, hc, hmv, bind_some]
      exact hr
  · cases h

theorem parseHunks_run (h : parseHunks hunks ls ln = .ok hs) (hc : AtHunkEnd hunks ls c) :
    ∃ c', run c ls = some c' ∧ c'.hunks = hs ∧ c'.Complete := by
  induction hunks, ls, ln using parseHunks.induct generalizing c with
  | case1 hunks ln =>
    simp only [parseHunks, Except.ok.injEq] at h
    exact ⟨c, rfl, hc.hunks.trans h, hc.complete⟩
  | case2 hunks ln first r e he =>
    rw [parseHunks] at h
    split at h
    · cases h
    · next he' => rw [he] at he'; cases he'
  | case3 hunks ln first r hunk n he _ ih =>
    rw [parseHunks_hunk he] at h
    obtain ⟨c₁, hr₁, hc₁⟩ := parseOneHunk_run he (hc.next first rfl)
    obtain ⟨c', hr, hh, hcm⟩ := ih h hc₁
    exact ⟨c', hr₁.trans hr, hh, hcm⟩

theorem run_of_parseHunks (h : parseHunks [] ls ln = .ok hs) :
    ∃ c, run .started ls = some c ∧ c.hunks = hs ∧ c.Complete :=
  parseHunks_run h ⟨rfl, trivial, fun _ _ => rfl⟩

def Cursor.inUpdate : Cursor → Bool
  | .update .. => true
  | _ => false

def Body.behind : Body → Option (List UpdateFileChunk)
  | .header | .unopened => some []
  | .opened .. => none
  | .inside chunks chunk => some (chunks ++ [chunk])
  | .closed chunks => some chunks

def Body.target : Body → Option (List UpdateFileChunk × UpdateFileChunk)
  | .header | .unopened | .closed [] => some ([], .empty none)
  | .opened chunks chunk | .inside chunks chunk => some (chunks, chunk)
  | .closed _ => none

def contextOf (line : Str) : Option (Option Str) :=
  if line = emptyChangeContextMarker then some none
  else (stripPrefix line changeContextMarker).map some

/-- Everything a line can do to the machine. -/
inductive Moves : Cursor → Str → Cursor → Prop
  | header {c c' line} (complete : c.Complete) (star : c.inUpdate → line.head? = some '*')
      (opens : openHunk c.hunks (trim line) = some c') : Moves c line c'
  | added {done path contents text} :
      Moves (.add done path contents) ('+' :: text) (.add done path (contents ++ text ++ ['\n']))
  | move {done path movePath dest} :
      Moves (.update done path movePath .header) (moveToMarker ++ dest)
        (.update done path (some dest) .unopened)
  | blank {done path movePath body chunks line} (behind : body.behind = some chunks)
      (blank : trim line = [])
      (untagged : ∀ before chunk, body = .inside before chunk → tagged line = false) :
      Moves (.update done path movePath body) line
        (.update done path movePath (if chunks.isEmpty then .unopened else .closed chunks))
  | context {done path movePath body chunks line ctx} (behind : body.behind = some chunks)
      (context : contextOf line = some ctx) :
      Moves (.update done path movePath body) line
        (.update done path movePath (.opened chunks (.empty ctx)))
  | tagged {done path movePath body chunks chunk line chunk'}
      (target : body.target = some (chunks, chunk)) (push : chunk.pushLine line = some chunk')
      (notBlank : body.behind = some [] → trim line ≠ []) :
      Moves (.update done path movePath body) line
        (.update done path movePath (.inside chunks chunk'))
  | eof {done path movePath chunks chunk} :
      Moves (.update done path movePath (.inside chunks chunk)) eofMarker
        (.update done path movePath (.closed (chunks ++ [{ chunk with isEndOfFile := true }])))

theorem chunkStep_moves {done path movePath body chunks line c'}
    (h : chunkStep done path movePath chunks line = some c') (b : body.behind = some chunks)
    (u : ∀ bf ch, body = .inside bf ch → tagged line = false) :
    Moves (.update done path movePath body) line c' := by
  rw [chunkStep] at h
  split at h
  · next hb =>
    cases h
    exact .blank b hb u
  next hb =>
  split at h
  · next hs =>
    split at h
    · cases h
    · next hne =>
      have hbd : body.chunks = chunks ∧ (Cursor.update done path movePath body).Complete := by
        cases body <;> simp_all [Body.behind, Body.chunks, Cursor.Complete]
      refine .header hbd.2 (fun _ => hs) ?_
      rw [Cursor.hunks, hbd.1]
      exact h
  next hs =>
  split at h
  · next he =>
    cases h
    exact .context b (by rw [contextOf, if_pos he])
  next he =>
  split at h
  · next cn hc =>
    cases h
    exact .context b (by rw [contextOf, if_neg he, hc, map_some])
  · split at h
    · next hem =>
      obtain ⟨ch, hp, rfl⟩ := map_eq_some_iff.mp h
      refine .tagged ?_ hp fun _ => hb
      cases isEmpty_iff.mp hem
      cases body <;> simp_all [Body.behind, Body.target]
    · cases h

theorem step_moves (h : step c l = some c') : Moves c l c' := by
  cases c with
  | add d p contents =>
    rw [step] at h
    split at h
    · next text ht =>
      cases h
      rw [stripPrefix_eq_some.mp ht]
      exact .added
    · exact .header trivial nofun h
  | update d p m b =>
    cases b with
    | header =>
      rw [step] at h
      split at h
      · next ds hd =>
        cases h
        rw [stripPrefix_eq_some.mp hd]
        exact .move
      · exact chunkStep_moves h rfl nofun
    | opened chunks chunk =>
      obtain ⟨chunk', hp, rfl⟩ := map_eq_some_iff.mp h
      exact .tagged rfl hp nofun
    | inside chunks chunk =>
      rw [step] at h
      split at h
      · next he =>
        cases h
        rw [he]
        exact .eof
      · split at h
        · next chunk' hp =>
          cases h
          exact .tagged rfl hp (by simp [Body.behind])
        · next hp =>
          exact chunkStep_moves h rfl fun _ _ _ => pushLine_eq_none.mp hp
    | _ => exact chunkStep_moves h rfl nofun
  | _ => exact .header trivial nofun h

end PatchLineMachine
