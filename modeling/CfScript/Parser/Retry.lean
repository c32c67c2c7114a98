import CfScript.Parser.Basic
import CfScript.Parser.Runs

/-!
# Parsing again

A parser that is reset has lost every trace of what it did before: it stands at the first token of its
stream and has found nothing. So a parse that bails costs time and nothing else, and after a fast parse
that bails the adaptive strategy answers what the general one answers.

## Main results

* `reset_parse`: a parse leaves no trace in a parser that is reset;
* `parseStream_adaptive_of_bailed`: after a fast parse that bails, the adaptive strategy answers what
  the general one answers.
-/

namespace CfScript

namespace TokenStream

theorem rewind_eq_of_tokens {s t : TokenStream} (h : s.tokens = t.tokens) : s.rewind = t.rewind := by
  obtain ⟨hBody, hLast⟩ := List.append_inj' h rfl
  simp only [rewind, seek, hBody, List.cons.inj hLast]

theorem rewind_ofTokens (tokens : List Token) : (ofTokens tokens).rewind = ofTokens tokens := by
  simp only [ofTokens]
  split
  · rfl
  · split <;> rfl

end TokenStream

namespace Parser

theorem reset_eq_of_tokens {p q : Parser} (h : p.stream.tokens = q.stream.tokens)
    (prediction : Prediction) : p.reset prediction = q.reset prediction := by
  rw [reset, reset, TokenStream.rewind_eq_of_tokens h]

theorem stream_tokens_parse (p : Parser) (entry : Entry) :
    (p.parse entry).2.stream.tokens = p.stream.tokens := by
  have h := stream_tokens_run (enough ⟨p.stream, p.findings⟩) ⟨p.prediction, false⟩ entry.goal
    (.start ⟨p.stream, p.findings⟩) ⟨p.stream, p.findings⟩
  simp only [parse, parseGoal]
  split
  · next parts s hParsed =>
    rw [hParsed] at h
    exact h
  · next bail s hBailed =>
    rw [hBailed] at h
    exact h
  · rfl

theorem reset_parse (p : Parser) (entry : Entry) (prediction : Prediction) :
    (p.parse entry).2.reset prediction = p.reset prediction :=
  reset_eq_of_tokens (p.stream_tokens_parse entry) prediction

end Parser

theorem parseStream_adaptive_of_bailed {stream : TokenStream} {entry : Entry} {bail : Bail}
    {p : Parser} (hStart : stream.rewind = stream)
    (h : (Parser.new stream .fast).parse entry = (.error bail, p)) :
    parseStream stream ⟨entry, .adaptive⟩ = parseStream stream ⟨entry, .generalOnly⟩ := by
  have hReset : p.reset .general = Parser.new stream .general := by
    have hParse := (Parser.new stream .fast).reset_parse entry .general
    rw [h, Parser.reset_new, hStart] at hParse
    exact hParse
  simp only [parseStream, h, hReset]

end CfScript
