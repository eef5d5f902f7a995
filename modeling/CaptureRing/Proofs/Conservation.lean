/-
  CaptureRing.Proofs.Conservation — the files of a single source are its bytes, cut between blocks.

  Between the stream and the files nothing is added but the seeds, and nothing is lost:
  what is cut from the stream goes through the merger untouched, and every block that
  went through it stands whole in one file.

  Proved, for every reader, every world and every rotation without a cap on the files, is
  `passthrough_conserves`: without their seeds, the files one after the other are the blocks
  cut from the stream, which are its bytes up to where it breaks.
-/

import CaptureRing.Proofs.Context
import CaptureRing.Proofs.Delivery
import CaptureRing.Proofs.FileNames

namespace CaptureRing

/-! ## The inputs of a whole stream -/

namespace Stream

/-- A stream that sends no failure had no error. -/
theorem clean_of_not_failed {rs : List (Result (Option Block) × Stream)}
    (h : ∀ e, Input.failed 0 e ∉ rs.map fun p => inputOf 0 p.1) : ∀ p ∈ rs, ∃ o, p.1 = .ok o := by
  intro p hp
  cases hr : p.1 with
  | ok o => exact ⟨o, rfl⟩
  | error e =>
    refine absurd (List.mem_map.mpr ⟨p, hp, ?_⟩) (h e.message)
    rw [hr]
    rfl

end Stream

/-- A stream that ended or failed sends nothing more, wherever idle intervals lie. -/
theorem orderly_of_stream {is : List Input} {s : Stream}
    (h : is.filter (· ≠ .idle) = s.run.map fun p => inputOf 0 p.1) : Orderly is := by
  have hblocks : (is.filter (· ≠ .idle)).Pairwise fun i _ => ∀ s, i.closes s = false := by
    rw [h]
    refine List.pairwise_map.mpr ((Stream.pairwise_pulls _ s).imp fun {p _} hp t => ?_)
    obtain ⟨r, _⟩ := p
    cases r with
    | error e => cases hp
    | ok o =>
      cases o with
      | none => cases hp
      | some b => rfl
  refine (List.pairwise_filter.mp hblocks).imp fun {i j} hij s hi hj => ?_
  have hni : i ≠ .idle := by
    intro he
    rw [he] at hi
    cases hi
  have hnj : j ≠ .idle := by
    intro he
    rw [he] at hj
    cases hj
  rw [hij (decide_eq_true hni) (decide_eq_true hnj) s] at hi
  cases hi

/-! ## Whole captures -/

variable {σ : Type} [World σ]

open Writer

/-- Without rotation the one file holds what the source sent, and no seed. -/
theorem SeededInTurn.content_of_single {parts : List Part} (h : SeededInTurn parts) (hone : parts.length = 1) :
    parts.map Part.content = [(parts.flatMap (·.own)).flatMap (·.raw)] := by
  obtain ⟨p, rfl⟩ := List.length_eq_one_iff.mp hone
  have hseed : p.seed = [] := (h [] p [] rfl).trans (seedBlocks_nil _)
  rw [List.map_singleton, List.flatMap_singleton]
  unfold Part.content Part.blocks
  rw [hseed, List.nil_append]

/-- The files without their seeds are together the blocks of the stream, each whole, and these
    are its bytes, unless it breaks; no file was written over, and without rotation there is
    just the one. -/
theorem passthrough_conserves {c : Config} {h : Host} {w : σ} {x : Writer} {l : Ledger σ}
    (hs : startCapture c h (Ledger.blank w) = (.ok x, l)) (hn : c.sources.length = 1)
    (hcap : c.rotation.ring = none) (ha : c.autostop = []) {r : Reader} {bs : Bytes} (hr : r.Delivers bs)
    {is : List Input} (hi : is.filter (· ≠ .idle) = (Stream.ofReader r).run.map fun p => inputOf 0 p.1)
    (hok : ((run is x l).1.conclude (run is x l).2).1.outputError = none) :
    ∃ parts : List Part,
      ((run is x l).1.conclude (run is x l).2).2.contents = parts.map Part.content ∧
        SeededInTurn parts ∧
        parts.flatMap (·.own) = (Stream.ofReader r).accepted ∧
        (Stream.ofReader r).accepted.flatMap (·.raw) <+: bs ∧
        ((∀ e, Input.failed 0 e ∉ is) → (Stream.ofReader r).accepted.flatMap (·.raw) = bs) ∧
        ((run is x l).1.conclude (run is x l).2).1.files = ((run is x l).1.conclude (run is x l).2).2.paths ∧
        ((run is x l).1.conclude (run is x l).2).2.paths.Nodup ∧
        (c.rotation.isEnabled = false →
          ((run is x l).1.conclude (run is x l).2).2.contents = [(Stream.ofReader r).accepted.flatMap (·.raw)]) := by
  have hst := startCapture_started hs
  have hw : Within c.sources.length is := by
    rw [hn]
    exact within_of_stream ⟨[], (List.append_nil _).trans hi⟩
  obtain ⟨order, vols, hreleased, hwithin, hall, herr, hk⟩ := hst.complete ha hw (orderly_of_stream hi) hok
  rw [hn] at hwithin hk
  -- all that was cut from the stream went through the merger
  have horder : order.map (·.2) = (Stream.ofReader r).accepted := by
    rw [map_snd_of_single hwithin, hall, ← sent_of_filter_idle, hi, sent_inputOf]
    rfl
  obtain ⟨idle, hcontents, hidle, hholds⟩ := hk.holds (ofCount_passesOn h) List.prefix_rfl
  obtain rfl := hidle herr
  rw [List.append_nil] at hcontents
  have hown := (own_parts (ofCount_passesOn h) hk.filed).trans horder
  have hshelved := hreleased.shelved hcap (fun _ => hst.shelved hcap) herr
  rw [conclude_contents, conclude_paths, conclude_kept]
  refine ⟨vols.map Volume.part, hcontents, hholds.seeded, hown, Stream.raw_accepted_prefix hr, fun hf => ?_,
    hshelved.ring, hshelved.nodup, fun he => ?_⟩
  · refine Stream.raw_accepted_of_clean hr (Stream.clean_of_not_failed fun e he => hf e ?_)
    rw [← hi] at he
    exact (List.mem_filter.mp he).1
  · rw [hcontents, ← hown]
    refine hholds.seeded.content_of_single ?_
    have hlen := congrArg List.length hcontents
    rw [Ledger.length_contents, List.length_map] at hlen
    have hone := congrArg List.length (hshelved.single he).1
    rw [Ledger.length_paths] at hone
    exact hlen.symm.trans hone

theorem passthrough_conserves_lone : ∃ x l,
    startCapture loneConfig ⟨none, none⟩ (Ledger.blank (Machine.ofDisk .empty)) = (.ok x, l) ∧
      ((run loneInputs x l).1.conclude (run loneInputs x l).2).2.paths.length = 3 ∧
      ∃ parts : List Part,
        ((run loneInputs x l).1.conclude (run loneInputs x l).2).2.contents = parts.map Part.content ∧
          (parts.flatMap (·.own)).flatMap (·.raw) = loneStream := by
  have hi : loneInputs.filter (· ≠ .idle)
      = (Stream.ofReader (Reader.ofBytes loneStream)).run.map fun p => inputOf 0 p.1 := by
    decide +kernel
  have hclean : ∀ e, Input.failed 0 e ∉ loneInputs := by
    intro e he
    have hsound : ∀ i ∈ loneInputs, (match i with | .failed .. => false | _ => true) = true := by
      decide +kernel
    exact Bool.false_ne_true (hsound _ he)
  obtain ⟨x, l, hs, hpaths, hok⟩ : ∃ x l,
      startCapture loneConfig ⟨none, none⟩ (Ledger.blank (Machine.ofDisk .empty)) = (.ok x, l) ∧
        ((run loneInputs x l).1.conclude (run loneInputs x l).2).2.paths.length = 3 ∧
        ((run loneInputs x l).1.conclude (run loneInputs x l).2).1.outputError = none :=
    ⟨_, _, rfl, by decide +kernel, by decide +kernel⟩
  obtain ⟨parts, hcontents, -, hown, -, hwhole, -⟩ :=
    passthrough_conserves hs rfl rfl rfl (Reader.ofBytes_delivers loneStream) hi hok
  refine ⟨x, l, hs, hpaths, parts, hcontents, ?_⟩
  rw [hown]
  exact hwhole hclean

end CaptureRing
