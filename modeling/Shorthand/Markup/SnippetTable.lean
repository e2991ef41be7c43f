/-!
# The snippet table

Snippets are names for longer abbreviations. The table is searched from the top; the abbreviations
may use snippets themselves, and the two variables `${lang}` and `${charset}`.
-/

namespace Shorthand.Markup.Snippet

/-- Every snippet: its name and the abbreviation it stands for. -/
def table : List (String × String) :=
  [("a", "a[href]"),
   ("a:link", "a[href=http://]"),
   ("a:mail", "a[href=mailto:]"),
   ("a:tel", "a[href=tel:+]"),
   ("abbr", "abbr[title]"),
   ("acr", "acronym[title]"),
   ("base", "base[href]/"),
   ("basefont", "basefont/"),
   ("br", "br/"),
   ("frame", "frame/"),
   ("hr", "hr/"),
   ("bdo", "bdo[dir]"),
   ("bdo:r", "bdo[dir=rtl]"),
   ("bdo:l", "bdo[dir=ltr]"),
   ("col", "col/"),
   ("link", "link[rel=stylesheet href]/"),
   ("link:css", "link[rel=stylesheet href=$\x7b1:style\x7d.css]/"),
   ("link:favicon", "link[rel=\"shortcut icon\" type=image/x-icon href=$\x7b1:favicon.ico\x7d]/"),
   ("link:touch", "link[rel=apple-touch-icon href=$\x7b1:favicon.png\x7d]/"),
   ("meta", "meta/"),
   ("meta:utf", "meta[http-equiv=Content-Type content=\"text/html;charset=UTF-8\"]/"),
   ("meta:vp",
    "meta[name=viewport content=\"width=$\x7b1:device-width\x7d, initial-scale=$\x7b2:1.0\x7d\"]/"),
   ("meta:compat", "meta[http-equiv=X-UA-Compatible content=\"$\x7b1:IE=7\x7d\"]/"),
   ("meta:edge", "meta:compat[content=\"$\x7b1:ie=edge\x7d\"]/"),
   ("style", "style"),
   ("script", "script"),
   ("script:src", "script[src]"),
   ("img", "img[src alt]/"),
   ("img:s", "img[sizes srcset src alt]/"),
   ("ifr", "iframe[src frameborder=0]"),
   ("iframe", "iframe[src frameborder=0]"),
   ("embed", "embed[src type]/"),
   ("object", "object[data type]"),
   ("param", "param[name value]/"),
   ("map", "map[name]"),
   ("area", "area[shape coords href alt]/"),
   ("form", "form[action]"),
   ("form:get", "form[method=get action]"),
   ("form:post", "form[method=post action]"),
   ("label", "label[for]"),
   ("input", "input[type=$\x7b1:text\x7d]/"),
   ("inp", "input[type=text name=$\x7b1\x7d id=$\x7b1\x7d]"),
   ("input:h", "input[type=hidden name]"),
   ("input:hidden", "input:h"),
   ("input:t", "inp[type=text]"),
   ("input:text", "inp[type=text]"),
   ("input:search", "inp[type=search]"),
   ("input:email", "inp[type=email]"),
   ("input:url", "inp[type=url]"),
   ("input:p", "inp[type=password]"),
   ("input:password", "inp[type=password]"),
   ("input:number", "inp[type=number]"),
   ("input:c", "inp[type=checkbox]"),
   ("input:checkbox", "inp[type=checkbox]"),
   ("input:r", "inp[type=radio]"),
   ("input:radio", "inp[type=radio]"),
   ("input:f", "inp[type=file]"),
   ("input:file", "inp[type=file]"),
   ("input:s", "input[type=submit value]"),
   ("input:submit", "input[type=submit value]"),
   ("input:b", "input[type=button value]"),
   ("input:button", "input[type=button value]"),
   ("input:reset", "input[type=reset value]"),
   ("select", "select[name=$\x7b1\x7d id=$\x7b1\x7d]"),
   ("option", "option[value]"),
   ("textarea", "textarea[name=$\x7b1\x7d id=$\x7b1\x7d cols=$\x7b2:30\x7d rows=$\x7b3:10\x7d]"),
   ("video", "video[src]"),
   ("audio", "audio[src]"),
   ("source", "source/"),
   ("track", "track/"),
   ("html", "html[lang=$\x7blang\x7d]"),
   ("html:xml", "html[xmlns=http://www.w3.org/1999/xhtml]"),
   ("keygen", "keygen/"),
   ("command", "command/"),
   ("btn", "button"),
   ("btn:s", "button[type=submit]"),
   ("btn:r", "button[type=reset]"),
   ("btn:d", "button[disabled]"),
   ("fst", "fieldset"),
   ("fst:d", "fieldset[disabled]"),
   ("bq", "blockquote"),
   ("fig", "figure"),
   ("figc", "figcaption"),
   ("pic", "picture"),
   ("emb", "embed[src type]/"),
   ("obj", "object[data type]"),
   ("cap", "caption"),
   ("colg", "colgroup"),
   ("sect", "section"),
   ("art", "article"),
   ("hdr", "header"),
   ("ftr", "footer"),
   ("adr", "address"),
   ("dlg", "dialog"),
   ("str", "strong"),
   ("prog", "progress"),
   ("mn", "main"),
   ("tem", "template"),
   ("datal", "datalist"),
   ("out", "output"),
   ("det", "details"),
   ("sum", "summary"),
   ("leg", "legend"),
   ("optg", "optgroup"),
   ("opt", "option[value]"),
   ("tarea", "textarea[name=$\x7b1\x7d id=$\x7b1\x7d cols=$\x7b2:30\x7d rows=$\x7b3:10\x7d]"),
   ("ri:art", "pic>source:media[media=\"(min-width: $\x7b1\x7d)\"]+img[alt]"),
   ("source:media", "source[media srcset]/"),
   ("ol+", "ol>li"),
   ("ul+", "ul>li"),
   ("dl+", "dl>dt+dd"),
   ("map+", "map>area"),
   ("table+", "table>tr>td"),
   ("tr+", "tr>td"),
   ("colgroup+", "colgroup>col"),
   ("colg+", "colgroup>col"),
   ("select+", "select>option"),
   ("optgroup+", "optgroup>option"),
   ("optg+", "optgroup>option"),
   ("!!!", "\x7b<!DOCTYPE html>\x7d"),
   ("doc",
    "html[lang=$\x7blang\x7d]>(head>meta[charset=$\x7bcharset\x7d]+meta:vp+" ++
      "title\x7b$\x7b1:Document\x7d\x7d)+body"),
   ("!", "!!!+doc"),
   ("html:5", "!"),
   ("c", "\x7b<!-- $\x7b0\x7d -->\x7d"),
   ("cc:ie", "\x7b<!--[if IE]>$\x7b0\x7d<![endif]-->\x7d")]

/-- The variables of snippet abbreviations and their values. -/
def variableValues : List (String × String) :=
  [("lang", "en"), ("charset", "UTF-8")]

/-- The abbreviation a snippet stands for. -/
def source? (name : String) : Option String := table.lookup name

end Shorthand.Markup.Snippet
