import RToJulia.Text.Bytes

/-!
# The page

The page on which a browser user enters R text and sees the Julia text.
-/

namespace RToJulia.Web

open Text

def pageLines : List String :=
  ["<!DOCTYPE html>",
   "<html lang=\"en\">",
   "<head>",
   "<meta charset=\"utf-8\">",
   "<title>rjulia</title>",
   "<style>",
   "body \x7b font-family: sans-serif; margin: 2em; \x7d",
   "textarea, pre \x7b width: 48%; height: 24em; font-family: monospace; box-sizing: border-box; \x7d",
   "pre \x7b display: inline-block; vertical-align: top; border: 1px solid #ccc; margin: 0; padding: 4px; overflow: auto; \x7d",
   ".error \x7b color: #b00; \x7d",
   "</style>",
   "</head>",
   "<body>",
   "<h1>R to Julia</h1>",
   "<textarea id=\"code\" spellcheck=\"false\">x &lt;- c(1, 2, 3)",
   "print(x)</textarea>",
   "<pre id=\"julia\"></pre>",
   "<p><button id=\"translate\">Translate</button></p>",
   "<script>",
   "document.getElementById(\"translate\").addEventListener(\"click\", async () => \x7b",
   "  const out = document.getElementById(\"julia\");",
   "  const res = await fetch(\"/translate\", \x7b",
   "    method: \"POST\",",
   "    headers: \x7b \"Content-Type\": \"application/json\" \x7d,",
   "    body: JSON.stringify(\x7b code: document.getElementById(\"code\").value \x7d),",
   "  \x7d);",
   "  const body = await res.json();",
   "  out.className = res.ok ? \"\" : \"error\";",
   "  out.textContent = res.ok ? body.julia : body.error;",
   "\x7d);",
   "</script>",
   "</body>",
   "</html>"]

def page : Bytes :=
  pageLines.flatMap fun line => utf8 line ++ [0x0a]

end RToJulia.Web
