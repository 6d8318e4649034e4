import TokenCorpus.Proofs.Corpus.Outcomes

/-!
A build overwrites nothing.

Whatever a build ends with, and wherever its directory for documents lies, it has only added to the
file system: directories on the way of the output path, and one file for each document that it tells
of.
-/

namespace TokenCorpus

open FileSystem (GrowsBy FileIn)

namespace Run

variable {base : FileSystem} {Dir : Location → Prop} {miner : Miner}

/-- The numbers of the scripts that a dump has come through have names that a file can have. -/
theorem named_foldlM_take {output : Text} {out : Location}
    (hout : base.documentDirectory output = .ok out) {stops : List Stop} {run last : Run base}
    (hrun : run.Grown (· = out)) (h : stops.foldlM (take miner (.dump output)) run = .ok last) :
    ∀ stop ∈ stops.zipIdx (run.sequence + 1), ∀ tree,
      miner.judge last.fs stop.1 = .ok (.accepted tree) →
      ∃ name, documentName stop.2 miner.options.sequenceWidth = .ok (Name.text name) := by
  have hjob := Job.writesIn_dump hout
  induction stops generalizing run with
  | nil => simp
  | cons stop stops ih =>
    obtain ⟨next, htake, h⟩ := exists_of_foldlM_cons h
    have hnext := grown_take hjob hrun htake
    have hgrow : GrowsBy (FileIn (· = out)) run.fs last.fs :=
      (take_grows hjob hrun htake).trans (grows_foldlM_take hjob hnext h)
    have hlater := ih hnext h
    rw [sequence_take htake] at hlater
    rw [List.zipIdx_cons, List.forall_mem_cons]
    refine ⟨?_, hlater⟩
    intro tree hjudge
    obtain ⟨verdict, hverdict, hsettle⟩ := take_eq_ok htake
    rw [Miner.judge_eq_ok_grows hgrow hverdict, Except.ok.injEq] at hjudge
    have hvisit : run.visit.Grown (· = out) := hrun
    obtain ⟨_, name, -, -, -, hname, -⟩ | ⟨hnot, -⟩ := fs_settle hout hvisit hsettle
    · exact ⟨name, hname⟩
    · exact absurd hjudge (hnot tree)

end Run

namespace Miner

variable {miner : Miner} {fs prepared : FileSystem} {input output : Text}

/-- A build with a prepared directory for documents has come through some stops, whatever it ends
with. -/
theorem build_progress (miner : Miner) (input : Text) {out : Location}
    (hprepare : prepareOutput fs output = (prepared, none))
    (hout : prepared.documentDirectory output = .ok out) :
    ∃ (stops : List Stop) (last : Run prepared) (events : List Event),
      stops.foldlM (Run.take miner (.dump output)) (miner.opening prepared input output) =
        .ok last ∧
      (miner.build fs input output).fs = last.fs ∧
      List.Forall₂ (miner.Tells (.dump output) last.fs) (stops.zipIdx 1) events ∧
      (miner.build fs input output).visited = events.filterMap Event.visited? ∧
      (miner.build fs input output).written = events.filterMap Event.written? := by
  cases hlist : prepared.findDirectory input with
  | error cause =>
    rw [build_of_unlisted hprepare hlist]
    exact ⟨[], miner.opening prepared input output, [], rfl, rfl, .nil, rfl, rfl⟩
  | ok root =>
    obtain ⟨stops, last, hpasses, hbuild⟩ | ⟨stops, last, _, _, _, hpasses, -, hbuild⟩ :=
      build_of_agenda hprepare (FileSystem.agenda_of_findDirectory hlist)
    · obtain ⟨events, hlog, htells⟩ := log_of_passes hout hpasses
      refine ⟨stops, last, events, hpasses.foldlM_take, by rw [hbuild], htells, ?_, ?_⟩
      · rw [hbuild, Outcome.visited_concat rfl, hlog]
        rfl
      · rw [hbuild, Outcome.written_concat rfl, hlog]
        rfl
    · obtain ⟨events, hlog, htells⟩ := log_of_passes hout hpasses
      exact ⟨stops, last, events, hpasses.foldlM_take, by rw [hbuild], htells,
        by rw [hbuild, Outcome.visited, hlog]; rfl, by rw [hbuild, Outcome.written, hlog]; rfl⟩

/-- What a build may have added to a file system: the directories on the way of the output path, and
a file for each document that it tells of, directly in the directory for documents and under the name
for its number. -/
structure Added (miner : Miner) (fs : FileSystem) (output : Text) (after : Outcome BuildReport) :
    Prop where
  kept : ∀ location node, fs.get? location = some node → after.fs.get? location = some node
  leads : ∀ lookup path location node, fs.land lookup path = .ok (.node location node) →
    after.fs.land lookup path = .ok (.node location node)
  new : ∀ location node, fs.get? location = none → after.fs.get? location = some node →
    after.fs.IsOnTheWay (Path.isAbsolute output) (Path.components output) location node ∨
    ∃ sequence ∈ after.written, ∃ out name content, after.fs.documentDirectory output = .ok out ∧
      documentName sequence miner.options.sequenceWidth = .ok (Name.text name) ∧
      location = name :: out ∧ node = .file content
  made : ∀ sequence ∈ after.written, ∃ out name content,
    after.fs.documentDirectory output = .ok out ∧
    documentName sequence miner.options.sequenceWidth = .ok (Name.text name) ∧
    fs.get? (name :: out) = none ∧ after.fs.get? (name :: out) = some (.file content)
  numbered : after.visited.map Prod.fst = List.range' 1 after.visited.length
  ofThisRun : after.written.Sublist (after.visited.map Prod.fst)
  once : (after.written.map (documentName · miner.options.sequenceWidth)).Nodup

/-- A build that has come through some stops has added their documents to the file system that has
been prepared. -/
theorem added_of_stops {out : Location} {stops : List Stop} {last : Run prepared}
    {events : List Event} {after : Outcome BuildReport}
    (honTheWay : GrowsBy (prepared.IsOnTheWay (Path.isAbsolute output) (Path.components output)) fs
      prepared)
    (hout : prepared.documentDirectory output = .ok out)
    (hfold : stops.foldlM (Run.take miner (.dump output)) (miner.opening prepared input output) =
      .ok last)
    (htells : List.Forall₂ (miner.Tells (.dump output) last.fs) (stops.zipIdx 1) events)
    (hfs : after.fs = last.fs) (hvisited : after.visited = events.filterMap Event.visited?)
    (hwritten : after.written = events.filterMap Event.written?) :
    miner.Added fs output after := by
  have hjob := Job.writesIn_dump hout
  have hstart : (miner.opening prepared input output).Grown (· = out) := GrowsBy.refl prepared
  have hgrown : GrowsBy (FileIn (· = out)) prepared last.fs :=
    Run.grown_foldlM_take hjob hstart hfold
  have hout' : last.fs.documentDirectory output = .ok out :=
    (FileSystem.documentDirectory_grows hgrown).mpr hout
  have hdocumentsOnly := (Run.documents_foldlM_take hout hstart hfold).1
  have hnumbers : after.visited.map Prod.fst = List.range' 1 stops.length :=
    hvisited ▸ numbers_of_tells htells
  have hsublist : after.written.Sublist (after.visited.map Prod.fst) :=
    hvisited ▸ hwritten ▸ written_sublist_numbers htells
  have hwrittenIff : ∀ sequence, sequence ∈ after.written ↔
      ∃ stop ∈ stops.zipIdx 1, stop.2 = sequence ∧
        ∃ tree, miner.judge last.fs stop.1 = .ok (.accepted tree) :=
    fun sequence => hwritten ▸ mem_written_iff htells
  have hnamed : ∀ sequence ∈ after.written, ∃ name,
      documentName sequence miner.options.sequenceWidth = .ok (Name.text name) := by
    intro sequence hmem
    obtain ⟨stop, hstop, rfl, tree, hjudge⟩ := (hwrittenIff sequence).mp hmem
    exact Run.named_foldlM_take hout hstart hfold stop hstop tree hjudge
  refine ⟨?_, ?_, ?_, ?_, ?_, hsublist, ?_⟩
  · intro location node hbefore
    rw [hfs]
    exact hgrown.get?_of_some (honTheWay.get?_of_some hbefore)
  · intro lookup path location node hbefore
    rw [hfs]
    exact FileSystem.land_node_of_grows hgrown (FileSystem.land_node_of_grows honTheWay hbefore)
  · intro location node hfree hthere
    rw [hfs] at hthere ⊢
    obtain hold | ⟨-, stop, hmem, tree, name, hjudge, hname, rfl, rfl⟩ :=
      hdocumentsOnly.get?_cases hthere
    · obtain hold' | ⟨-, hnew⟩ := honTheWay.get?_cases hold
      · rw [hfree] at hold'
        simp at hold'
      · exact Or.inl (hnew.mono hgrown (List.prefix_refl _))
    · exact Or.inr ⟨stop.2, (hwrittenIff stop.2).mpr ⟨stop, hmem, rfl, tree, hjudge⟩, out, name, _,
        hout', hname, rfl, rfl⟩
  · intro sequence hmem
    obtain ⟨name, hname⟩ := hnamed sequence hmem
    obtain ⟨stop, hstop, rfl, tree, hjudge⟩ := (hwrittenIff sequence).mp hmem
    have hnew := (newFiles_iff (honTheWay.mono fun _ _ h => h.1) hout hfold (name :: out) _).mpr
      ⟨stop, hstop, tree, name, hjudge, hname, rfl, rfl⟩
    rw [hfs]
    exact ⟨out, name, _, hout', hname, hnew⟩
  · rw [hnumbers, ← List.length_map Prod.fst, hnumbers, List.length_range']
  · have hnodup : after.written.Nodup := hsublist.nodup (hnumbers ▸ List.nodup_range' 1)
    refine hnodup.map_on ?_
    intro first hfirst second _ heq
    obtain ⟨name, hname⟩ := hnamed first hfirst
    exact documentName_injective hname (heq ▸ hname)

/-- A build loses nothing and changes nothing that was there, whatever it ends with, and it makes no
document twice. The directory for documents may lie anywhere and hold anything. -/
theorem build_added (miner : Miner) (fs : FileSystem) (input output : Text) :
    miner.Added fs output (miner.build fs input output) := by
  have honTheWay := prepareOutput_onTheWay fs output
  generalize hprepare : prepareOutput fs output = result at honTheWay
  obtain ⟨prepared, failure⟩ := result
  cases failure with
  | some e =>
    rw [build_of_unprepared hprepare]
    refine ⟨fun _ _ => honTheWay.get?_of_some, fun _ _ _ _ => FileSystem.land_node_of_grows honTheWay,
      ?_, by simp [Outcome.written], rfl, .slnil, .nil⟩
    intro location node hfree hthere
    obtain hold | ⟨-, hnew⟩ := honTheWay.get?_cases hthere
    · rw [hfree] at hold
      simp at hold
    · exact Or.inl hnew
  | none =>
    obtain ⟨out, hout⟩ := prepareOutput_ready hprepare
    obtain ⟨stops, last, events, hfold, hfs, htells, hvisited, hwritten⟩ :=
      build_progress miner input hprepare hout
    exact added_of_stops honTheWay hout hfold htells hfs hvisited hwritten

end Miner

end TokenCorpus
